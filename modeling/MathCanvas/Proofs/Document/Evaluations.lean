import MathCanvas.Proofs.Document.Onset
import MathCanvas.Proofs.Document.Spreading

/-!
# How often a change makes a cell evaluate

A change spreads depth-first: whoever is told of a value reacts before the next one is told. A cell
that reads names of several cells that change is told by each of them, and evaluates each time. So
when a cell gets another expression, every cell dispatches the commands of one run of its plan at most
once for each route that leads to it (`Workspace.dispatches_setExpression_le`), but not just once
(`Workspace.dispatches_diamond`). Routes begin at the cell itself and at the heirs of the names that
it does not write any more, whose definitions go first (`Workspace.editRoutes`).
-/

namespace MathCanvas

namespace Workspace

variable {v w w' : Workspace} {d c c' : CellId} {cell first : Cell} {s : ScopeId} {e : Expr}
  {backend : Backend} {deeds : List Deed}

/-- The workspace with another expression in one of its cells. -/
def edited (w : Workspace) (c : CellId) (e : Expr) : Workspace :=
  w.onCell c fun cell => w.putCell c { cell with expression := e }

/-- The names that a cell writes and would not write with another expression. -/
def dropped (w : Workspace) (c : CellId) (e : Expr) : List String :=
  ((w.cell? c).elim [] (·.expression.writtenNames)).filter fun name =>
    !e.writtenNames.contains name

/-- How many ways lead from a new expression of a cell to a cell: from the cell itself, and from
those that read a name which it does not write any more. -/
def editRoutes (w : Workspace) (c : CellId) (e : Expr) (d : CellId) : Nat :=
  let after := w.edited c e
  after.routes d c +
    ((w.dropped c e).map fun name => ((after.heirs c name).map (after.routes d)).sum).sum

/-! ### The cell is brought in step -/

/-- While a cell is brought in step, its definitions of names that it does not write any more have to
be paid for. -/
theorem exists_coverAll_synchronize (t : v.Tariff c d) (w : Workspace) (cell : Cell)
    (hsuspended : cell.suspended = true) (hfirst : v.cell? c = some first)
    (hseat : first.scope = some s) (hplace : first.position = cell.position)
    (hreaders : ∀ {n : String} {q : ScopeId} {r : ReaderId}, cell.Has n q r .reader → q = s)
    (hdefinitions : ∀ {n : String} {q : ScopeId} {x : SlotId}, cell.Has n q x .definition →
      q = s ∧ ∀ m y, (x, y) ∈ w.tree.sequence q m → m = n ∧ y = cell.position) :
    ∃ tasks prices, (w.synchronize c cell s).agenda = tasks ++ w.agenda ∧
      t.CoverAll s (w.synchronize c cell s) tasks prices ∧
      prices.sum = ((cell.outputs.keys.filter fun n =>
        !cell.expression.writtenNames.contains n).map (t.name c)).sum := by
  have hinput : ∀ {name : String} {i : CellInput}, (name, i) ∈ cell.inputs.toList →
      cell.Has name i.scope i.reader .reader := fun hmem =>
    Cell.has_reader_iff.mpr ⟨_, Std.TreeMap.mem_toList_iff_getElem?_eq_some.mp hmem, rfl, rfl⟩
  have houtput : ∀ {name : String} {o : CellOutput}, (name, o) ∈ cell.outputs.toList →
      cell.Has name o.scope o.slot .definition :=
    Std.TreeMap.mem_toList_iff_getElem?_eq_some.mp
  unfold synchronize
  simp only [List.partition_eq_filter_filter]
  rw [List.append_assoc, List.append_assoc, List.append_assoc, List.append_assoc, List.append_assoc]
  have hkept : ∀ {tasks : List Task}, ((w.putCell c cell.inStep).push tasks).Suspended c := by
    intro tasks found hfound
    cases (cell?_putCell w c cell.inStep).symm.trans hfound
    exact hsuspended
  have hsum : ((cell.outputs.keys.filter fun n =>
      !cell.expression.writtenNames.contains n).map (t.name c)).sum =
      ((cell.outputs.toList.filter fun entry =>
        !cell.expression.writtenNames.contains entry.1).map fun entry => t.name c entry.1).sum := by
    rw [← Std.TreeMap.map_fst_toList_eq_keys, List.filter_map, List.map_map]
    rfl
  refine ⟨_, exists_and_left.mpr ⟨rfl, ?_⟩⟩
  rw [hsum]
  refine (Tariff.CoverAll.of_map fun entry hentry => ?_).around ?_ ?_
  · obtain ⟨rfl, hplaced⟩ := hdefinitions (houtput (List.mem_filter.mp hentry).1)
    refine ⟨rfl, hkept, fun m y hy => ?_⟩
    obtain ⟨rfl, rfl⟩ := hplaced m y hy
    exact ⟨⟨first, hfirst, hseat, hplace.symm⟩, Nat.le_refl _⟩
  · intro task htask
    obtain ⟨entry, -, rfl⟩ := List.mem_map.mp htask
    exact trivial
  · intro task htask
    simp only [List.mem_append, List.mem_map, List.mem_filter, List.mem_singleton] at htask
    rcases htask with ⟨entry, ⟨hentry, -⟩, rfl⟩ | ⟨entry, ⟨hentry, -⟩, rfl⟩ | ⟨n, -, rfl⟩ |
      ⟨n, -, rfl⟩ | rfl
    · intro m y hy
      obtain ⟨-, rfl⟩ := (hdefinitions (houtput hentry)).2 m y hy
      exact Position.same_iff.mpr ⟨Position.le_refl _, Position.le_refl _⟩
    · exact hreaders (hinput hentry)
    · exact trivial
    · exact trivial
    · exact trivial

/-! ### The change begins -/

theorem cell?_edited (hcell : w.cell? c = some cell) :
    (w.edited c e).cell? c = some { cell with expression := e } := by
  rw [edited, onCell, hcell]
  exact cell?_putCell ..

theorem cell?_edited_of_ne (hne : c' ≠ c) : (w.edited c e).cell? c' = w.cell? c' := by
  unfold edited onCell
  split
  · exact lookup_insert_of_ne _ _ hne.symm
  · rfl

/-- A new expression leaves the cells in their scopes. -/
theorem exists_scope_eq_of_edited (hcell : (w.edited c e).cell? c' = some cell) :
    ∃ before, w.cell? c' = some before ∧ before.scope = cell.scope := by
  by_cases hc : c' = c
  · subst hc
    cases hbefore : w.cell? c' with
    | none =>
      rw [edited, onCell, hbefore] at hcell
      cases hbefore.symm.trans hcell
    | some before =>
      cases (cell?_edited hbefore).symm.trans hcell
      exact ⟨before, rfl, rfl⟩
  · exact ⟨cell, (cell?_edited_of_ne hc).symm.trans hcell, rfl⟩

theorem resembles_edited (hcell : w.cell? c = some cell)
    (hcells : ∀ c', w'.cell? c' =
      (w.putCell c { cell with expression := e, suspended := true }).cell? c') :
    (w.edited c e).Resembles w' := by
  constructor
  · intro c' found hfound
    by_cases hc : c' = c
    · subst hc
      cases ((hcells c').trans (cell?_putCell ..)).symm.trans hfound
      exact ⟨_, cell?_edited hcell, rfl, rfl, rfl⟩
    · have hsame := (hcells c').trans (lookup_insert_of_ne _ _ (Ne.symm hc))
      exact ⟨found, (cell?_edited_of_ne hc).trans (hsame.symm.trans hfound), rfl, rfl, rfl⟩
  · intro c' hpresent
    rw [hcells]
    by_cases hc : c' = c
    · rw [hc, cell?_putCell]
      rintro ⟨⟩
    · rw [cell?_edited_of_ne hc] at hpresent
      exact cell?_putCell_ne_none hpresent

/-- Nothing happens if there is no such cell. -/
theorem step_setExpression_of_none (hquiet : w.agenda = []) (hnone : w.cell? c = none) :
    (w.call (.setExpression c e)).step = ({ w with history := [] } : Workspace).sweep := by
  have hsame : ({ w with history := [] } : Workspace).cell? c = none := hnone
  rw [step_call hquiet]
  show (({ w with history := [] } : Workspace).onHeldCell c _).sweep = _
  unfold onHeldCell onCell
  rw [hsame]
  split <;> rfl

/-- A cell gets another expression and is going to be brought in step. -/
theorem step_setExpression (hquiet : w.agenda = []) (hcell : w.cell? c = some cell)
    (hawake : cell.suspended = false) (hheld : ∀ {c : CellId}, w.cell? c ≠ none → c ∈ w.heldCells)
    (htied : w.tree.WellTied) :
    (w.call (.setExpression c e)).step.agenda =
        [.cell c .synchronize, .cell c (.endBatch false true), .releaseCell c] ∧
      (w.call (.setExpression c e)).step.history = [] ∧
      (∀ c', (w.call (.setExpression c e)).step.cell? c' =
        (w.putCell c { cell with expression := e, suspended := true }).cell? c') ∧
      ∀ {q n} {a : SlotId × Position},
        a ∈ (w.call (.setExpression c e)).step.tree.sequence q n → a ∈ w.tree.sequence q n := by
  let u : Workspace := { w with history := [] }
  let b : Workspace := (u.push [.releaseCell c]).batch c { cell with expression := e } true
  have hstep : (w.call (.setExpression c e)).step = b.sweep := by
    rw [step_call hquiet]
    show (u.onHeldCell c _).sweep = _
    rw [onHeldCell_of_held (w := u) (hheld (by rw [hcell]; rintro ⟨⟩)) hcell]
  obtain ⟨cells, tree, hsweep, hcells⟩ := b.exists_sweep_eq
  refine ⟨?_, ?_, fun c' => ?_, fun {q n a} ha => ?_⟩
  · rw [hstep, sweep_agenda]
    show [_, .cell c (.endBatch cell.suspended true)] ++ ([.releaseCell c] ++ w.agenda) = _
    rw [hawake, hquiet]
    rfl
  · rw [hstep, hsweep]
    rfl
  · -- all cells are held, and stay when the workspace is swept
    rw [hstep]
    cases hfound : (w.putCell c { cell with expression := e, suspended := true }).cell? c' with
    | none =>
      refine Option.eq_none_iff_forall_ne_some.mpr fun found hstays => ?_
      rw [hsweep] at hstays
      cases hfound.symm.trans (hcells hstays)
    | some found =>
      refine cell?_sweep_of_held ?_ hfound
      by_cases hc : c' = c
      · exact hc ▸ hheld (by rw [hcell]; rintro ⟨⟩)
      · refine hheld ?_
        rw [← show (w.putCell c _).cell? c' = w.cell? c' from
          lookup_insert_of_ne _ _ (Ne.symm hc), hfound]
        rintro ⟨⟩
  · rw [hstep] at ha
    exact ((enrolled_sweep (k := .definition) (w := b) htied).mp ha).1

/-- A cell has definitions of just the names that it writes, so that those which are to go are of
names that it drops. -/
theorem Supplies.sum_unwritten_le (h : w.Supplies w.agenda) (hquiet : w.agenda = [])
    (hcell : w.cell? c = some cell) (hattached : cell.scope ≠ none) (price : String → Nat) :
    ((cell.outputs.keys.filter fun n => !e.writtenNames.contains n).map price).sum ≤
      ((w.dropped c e).map price).sum := by
  refine sum_map_le_of_subset (Std.TreeMap.nodup_keys.filter _) price fun n hn => ?_
  obtain ⟨hkey, hunwanted⟩ := List.mem_filter.mp hn
  obtain ⟨⟨p, x⟩, ho⟩ := (mem_keys_iff_lookup ..).mp hkey
  have hwritten := (h.mem_wants_iff hquiet hcell hattached n .definition).mpr ⟨p, x, ho⟩
  rw [dropped, hcell]
  exact List.mem_filter.mpr ⟨hwritten, hunwanted⟩

/-- The cell is brought in step, and the rest of the agenda is covered. -/
theorem exists_coverAll_step {u : Workspace} (hchronicle : Chronicle backend (fun _ _ => True) deeds w)
    (hprompt : backend.Prompt) (hquiet : w.agenda = []) (hcell : w.cell? c = some cell)
    (hscope : ∀ {q}, cell.scope = some q → q = s) (t : (w.edited c e).Tariff c d)
    (hu : u.cell? c = some { cell with expression := e, suspended := true })
    (hsequence : ∀ {q n} {a : SlotId × Position}, a ∈ u.tree.sequence q n → a ∈ w.tree.sequence q n)
    (hagenda : u.agenda = [.cell c (.endBatch false true), .releaseCell c]) :
    ∃ prices, t.CoverAll s (u.perform (.cell c .synchronize))
        (u.perform (.cell c .synchronize)).agenda prices ∧
      (u.perform (.cell c .synchronize)).dispatches d = u.dispatches d ∧
      prices.sum ≤ t.cell c + ((w.dropped c e).map (t.name c)).sum := by
  have hposted := hchronicle.posted hprompt
  have hsupplies := hchronicle.supplies hprompt
  obtain ⟨hsecluded, -, -⟩ := hchronicle.exists_run hprompt
  have hconsistent : w.tree.Consistent := hsecluded.ready.tied.allConsistent
  let new : Cell := { cell with expression := e, suspended := true }
  have hrest : ∀ u' : Workspace, t.CoverAll s u' [.cell c (.endBatch false true), .releaseCell c]
      [t.cell c, 0] := fun u' => .cons ⟨rfl, Nat.le_refl _⟩ (.cons trivial .nil)
  rcases Option.eq_none_or_eq_some cell.scope with hattached | ⟨q, hattached⟩
  · have hsame : u.perform (.cell c .synchronize) = u := by
      rw [perform_cell hu]
      simp only [performCell, hattached]
    rw [hsame, hagenda]
    exact ⟨_, hrest u, rfl, by simp⟩
  · obtain rfl := hscope hattached
    have hsame : u.perform (.cell c .synchronize) = u.synchronize c new q := by
      rw [perform_cell hu]
      simp only [performCell, hattached, new]
    rw [hsame]
    have has : ∀ {n : String} {p : ScopeId} {x : Nat} {k : Role}, new.Has n p x k →
        p = q ∧ w.tree.Enrolled p x n (cell.stand n k) k := by
      intro n p x k hnew
      have hold : cell.Has n p x k := (Cell.has_congr rfl rfl).mp hnew
      obtain ⟨hseat, henrolled⟩ := hposted.enrolled hquiet hcell hold
      exact ⟨hscope hseat, henrolled⟩
    obtain ⟨tasks, prices, heq, hcovers, hsum⟩ := exists_coverAll_synchronize t u new rfl
      (cell?_edited hcell) hattached rfl (fun hnew => (has hnew).1) fun hnew =>
        ⟨(has hnew).1, fun m y hy =>
          ScopeTree.eq_of_mem_sequence hconsistent (hsequence hy) (has hnew).2⟩
    refine ⟨prices ++ [t.cell c, 0], ?_, rfl, ?_⟩
    · rw [heq, hagenda]
      exact List.rel_append hcovers (hrest _)
    · have hle := hsupplies.sum_unwritten_le (e := e) hquiet hcell (by rw [hattached]; rintro ⟨⟩)
        (t.name c)
      rw [List.sum_append, hsum, List.sum_cons, List.sum_singleton, Nat.add_zero, Nat.add_comm]
      exact Nat.add_le_add_left hle _

/-- A new expression of a cell begins a change that spreads from the cell. -/
theorem charged_setExpression (hchronicle : Chronicle backend (fun _ _ => True) deeds w)
    (himmediate : backend.Immediate) (hquiet : w.agenda = []) (hspaced : w.Spaced)
    (hcell : w.cell? c = some cell) (hscope : ∀ {q}, cell.scope = some q → q = s)
    (t : (w.edited c e).Tariff c d) :
    Charged backend t s (t.cell c + ((w.dropped c e).map (t.name c)).sum)
        (w.call (.setExpression c e)).step.step ∧
      (w.call (.setExpression c e)).step.step.dispatches d = 0 := by
  have hprompt := himmediate.prompt
  obtain ⟨hsecluded, hbackend, -⟩ := hchronicle.exists_run hprompt
  have hcascading : w.Cascading :=
    ⟨hchronicle.enlisted hprompt.answering, hsecluded, hbackend ▸ himmediate, hspaced⟩
  have hawake := (hsecluded.batched c).not_suspended (by simp [hquiet]) hcell
  -- the first step is the operation itself, and the second one brings the cell in step
  have hop : (Op.setExpression c e).InDocument := trivial
  obtain ⟨hcascading₁, g, heights, hcascade⟩ := hcascading.call hquiet hop not_false trivial
  have hchronicle₁ := (hchronicle.call (.setExpression c e) hquiet not_false trivial).step rfl
  obtain ⟨hagenda, hhistory, hcells, hsequence⟩ := step_setExpression (e := e) hquiet hcell hawake
    (fun hpresent => hsecluded.held hpresent) hsecluded.ready.tied
  generalize (w.call (.setExpression c e)).step = w₁ at *
  have hcell₁ : w₁.cell? c = some { cell with expression := e, suspended := true } :=
    (hcells c).trans (cell?_putCell ..)
  have hanswers := hcascade.answers hagenda
  obtain ⟨hcascading₂, g', heights', hcascade', -⟩ := hcascading₁.exists_cascade_step hagenda hcascade
  obtain ⟨prices, hcovers, hdispatches, hsum⟩ := exists_coverAll_step
    (u := { w₁ with agenda := [.cell c (.endBatch false true), .releaseCell c] })
    hchronicle hprompt hquiet hcell hscope t hcell₁ hsequence rfl
  have htied := (hcascading₁.secluded.ready.perform hagenda).tied
  have hstep := step_of_agenda hagenda
  refine ⟨⟨⟨_, hchronicle₁.step hagenda⟩, hcascading₂, ⟨g', heights', hcascade'⟩,
    (resembles_edited hcell hcells).step hcascading₁ hchronicle₁ hprompt hagenda hanswers nofun,
    [], w₁.step.agenda, prices, rfl, by simp, ?_, hsum⟩, ?_⟩
  · rw [hstep, sweep_agenda]
    exact hcovers.imp_of_mem fun _ h => h.sweep htied fun hpresent =>
      hcascading₁.held_after hanswers hpresent
  · rw [hstep, dispatches_sweep, hdispatches]
    show w₁.history.countP _ = 0
    rw [hhistory]
    rfl

/-- A change that begins with a new expression of a cell makes every cell dispatch at most the
commands of one run of its plan for each route by which the change gets there. -/
theorem dispatches_setExpression_le (h : Chronicle backend (fun _ _ => True) deeds w)
    (himmediate : backend.Immediate) (hquiet : w.agenda = []) (hspaced : w.Spaced)
    (hscope : ∀ {c : CellId} {cell : Cell} {q : ScopeId}, w.cell? c = some cell →
      cell.scope = some q → q = s) (c : CellId) (e : Expr) (n : Nat) (d : CellId) :
    ((w.call (.setExpression c e)).settle n).dispatches d ≤
      (w.edited c e).commandsOf d * w.editRoutes c e d := by
  obtain ⟨hsecluded, -, -⟩ := h.exists_run himmediate.prompt
  cases n with
  | zero => exact Nat.zero_le _
  | succ n =>
    rw [settle_succ rfl]
    cases hcell : w.cell? c with
    | none =>
      have hrests : ({ w with history := [] } : Workspace).sweep.agenda = [] :=
        (sweep_agenda _).trans hquiet
      rw [step_setExpression_of_none hquiet hcell, settle_of_quiet hrests, dispatches_sweep]
      exact Nat.zero_le _
    | some cell =>
      have hawake := (hsecluded.batched c).not_suspended (by simp [hquiet]) hcell
      obtain ⟨hagenda, hhistory, -⟩ := step_setExpression (e := e) hquiet hcell hawake
        (fun hpresent => hsecluded.held hpresent) hsecluded.ready.tied
      obtain ⟨t, hcost, hnames⟩ := exists_tariff (cell?_edited (e := e) hcell) d
      obtain ⟨hcharged, hnone⟩ := charged_setExpression (s := s) h himmediate hquiet hspaced hcell
        (hscope hcell) t
      cases n with
      | zero =>
        show (w.call (.setExpression c e)).step.history.countP _ ≤ _
        rw [hhistory]
        exact Nat.zero_le _
      | succ n =>
        rw [settle_succ hagenda]
        refine (hcharged.dispatches_settle himmediate (fun {c' found q} hfound hseat => ?_) n).trans ?_
        · obtain ⟨before, hbefore, hsame⟩ := exists_scope_eq_of_edited hfound
          exact hscope hbefore (hsame.trans hseat)
        · rw [hnone, Nat.zero_add, hcost, List.map_congr_left fun name _ => hnames name,
            List.sum_map_mul_left, ← Nat.mul_add]
          exact Nat.le_refl _

/-! ### Two routes -/

/-- Makes a cell at a height that assigns an expression to a name. -/
def defining (y : Int) (name : String) (e : Expr) : Op :=
  .newCell ⟨.ofInt 0, .ofInt y⟩ (.app "Assign" [.symbol name, e]) (some 0) true

/-- The cells `a := 1`, `b := a` and `c := a + b`, one below the other. From the first one, two routes
lead to the last one. -/
def diamond : Workspace :=
  ({ backend := .immediate } : Workspace).call (defining 0 "a" (.number (.ofInt 1))) |>.settle 24
    |>.call (defining 1 "b" (.symbol "a")) |>.settle 24
    |>.call (defining 2 "c" (.app "Add" [.symbol "a", .symbol "b"])) |>.settle 24

theorem exists_chronicle_diamond :
    ∃ deeds, Chronicle .immediate (fun _ _ => True) deeds diamond := by
  have hstart : Chronicle .immediate (fun _ _ => True) [] { backend := .immediate } := .start
  have ha := (hstart.call (defining 0 "a" (.number (.ofInt 1))) rfl not_false trivial).settle 24
  have hb := (ha.call (defining 1 "b" (.symbol "a")) (by decide +kernel) not_false trivial).settle 24
  have hc := (hb.call (defining 2 "c" (.app "Add" [.symbol "a", .symbol "b"])) (by decide +kernel)
    not_false trivial).settle 24
  exact ⟨_, hc⟩

theorem spaced_diamond : diamond.Spaced := by
  have hall : ∀ entry ∈ diamond.cells.toList, entry.2.position.Interior ∧
      ∀ entry' ∈ diamond.cells.toList,
        entry.2.position.same entry'.2.position = true → entry.1 = entry'.1 := by
    decide +kernel
  have hmem : ∀ {c cell}, diamond.cell? c = some cell → (c, cell) ∈ diamond.cells.toList :=
    Std.TreeMap.mem_toList_iff_getElem?_eq_some.mpr
  exact ⟨fun hcell hcell' => (hall _ (hmem hcell)).2 _ (hmem hcell'),
    fun hcell => (hall _ (hmem hcell)).1⟩

theorem automatic_diamond {c : CellId} {cell : Cell} (hcell : diamond.cell? c = some cell) :
    cell.scope = some 0 ∧ cell.automatic = true := by
  have hall : ∀ entry ∈ diamond.cells.toList, entry.2.scope = some 0 ∧ entry.2.automatic = true := by
    decide +kernel
  exact hall (c, cell) (Std.TreeMap.mem_toList_iff_getElem?_eq_some.mpr hcell)

/-- When `a := 1` becomes `a := 2`, no more is dispatched for `c` than the two routes allow. -/
theorem dispatches_setExpression_le_diamond :
    let e : Expr := .app "Assign" [.symbol "a", .number (.ofInt 2)]
    ((diamond.call (.setExpression 0 e)).settle 106).dispatches 2 ≤
        (diamond.edited 0 e).commandsOf 2 * diamond.editRoutes 0 e 2 ∧
      (diamond.edited 0 e).commandsOf 2 = 1 ∧ diamond.editRoutes 0 e 2 = 2 := by
  intro e
  obtain ⟨deeds, hchronicle⟩ := exists_chronicle_diamond
  refine ⟨?_, by decide +kernel⟩
  exact dispatches_setExpression_le hchronicle Backend.immediate_immediate (by decide +kernel)
    spaced_diamond
    (fun hcell hscope => Option.some.inj (hscope.symm.trans (automatic_diamond hcell).1)) 0 e 106 2

/-- When `a := 1` becomes `a := 2`, the cell of `c` hears from the cell of `b` first and from that of
`a` afterwards, and evaluates each time. -/
theorem dispatches_diamond :
    let w := (diamond.call
      (.setExpression 0 (.app "Assign" [.symbol "a", .number (.ofInt 2)]))).settle 106
    (∃ deeds, Chronicle .immediate (fun _ _ => True) deeds diamond) ∧ diamond.agenda = [] ∧
      diamond.definitions = #[] ∧ diamond.readers = #[] ∧ diamond.Spaced ∧
      (∀ c cell, diamond.cell? c = some cell → cell.scope = some 0 ∧ cell.automatic = true) ∧
      w.agenda = [] ∧ w.commandsOf 2 = 1 ∧ w.dispatches 2 = 2 := by
  intro w
  refine ⟨exists_chronicle_diamond, by decide +kernel, by decide +kernel, by decide +kernel,
    spaced_diamond, fun _ _ => automatic_diamond, ?_⟩
  decide +kernel

end Workspace

end MathCanvas
