import MathCanvas.Proofs.Document.Subsiding
import MathCanvas.Proofs.Document.Termination

/-!
# Recalculation

When a document is recalculated, each cell that is stale is evaluated when its turn comes. This can
make other cells stale, but if the cells stand in different places, only later ones: all that is set
off is lower than what would make the cell itself or an earlier one stale
(`Workspace.Recalculates`). So no cell is stale when all have had their turns
(`Document.Reached.not_stale_of_recalculate`).
-/

namespace MathCanvas

namespace Workspace

variable {w : Workspace} {g : Grading} {c : CellId} {cell : Cell} {op : Op} {ops : List Op}
  {ids : List CellId}

/-! ### The turn of a cell -/

/-- A cell that is stale is going to evaluate. -/
theorem exists_operate_recalculateStale (w : Workspace) (c : CellId) : ∃ tasks,
    (w.operate (.recalculateStale c)).2 = w.push tasks ∧
      (tasks = [.cell c .invalidate, .cell c .evaluate, .releaseCell c] ∨
        tasks = [] ∧ ∀ cell, w.cell? c = some cell → c ∈ w.heldCells → cell.status ≠ .stale) := by
  unfold operate onHeldCell onCell
  simp only
  split
  · cases hcell : w.cell? c with
    | none => exact ⟨[], rfl, .inr ⟨rfl, by simp⟩⟩
    | some cell =>
      simp only
      split
      · exact ⟨_, rfl, .inl rfl⟩
      · rename_i hstatus
        refine ⟨[], rfl, .inr ⟨rfl, fun found hfound _ => ?_⟩⟩
        cases hfound
        simpa using hstatus
  · rename_i hheld
    exact ⟨[], rfl, .inr ⟨rfl, fun cell _ hmem => absurd (List.contains_iff_mem.mpr hmem) hheld⟩⟩

/-- The turn of a cell begins. -/
theorem Subsides.call (h : w.Subsides g) (hquiet : w.agenda = []) (c : CellId) :
    (w.call (.recalculateStale c)).step.Subsides g ∧
      (∀ t ∈ (w.call (.recalculateStale c)).step.agenda,
        (w.call (.recalculateStale c)).step.Under g t (height 0 (g.cell c) 4 0)) ∧
      (∀ c' cell', (w.call (.recalculateStale c)).step.cell? c' = some cell' →
        w.cell? c' = some cell') ∧
      (w.call (.recalculateStale c)).step.Refreshed g c := by
  have hw := h.cascading
  have hop : (Op.recalculateStale c).InDocument := trivial
  obtain ⟨hcascading, -⟩ := hw.call hquiet hop id trivial
  let v : Workspace := { w with history := [] }
  obtain ⟨tasks, hoperate, htasks⟩ := v.exists_operate_recalculateStale c
  have hstep : (w.call (.recalculateStale c)).step = (v.push tasks).sweep := by
    rw [step_call hquiet, hoperate]
  have hagenda : (v.push tasks).sweep.agenda = tasks := by
    rw [sweep_agenda]
    show tasks ++ w.agenda = tasks
    rw [hquiet, List.append_nil]
  have hcells : ∀ c' cell', (v.push tasks).sweep.cell? c' = some cell' →
      w.cell? c' = some cell' := by
    intro c' cell' hcell'
    obtain ⟨cells, tree, heq, hcells⟩ := (v.push tasks).exists_sweep_eq
    rw [heq] at hcell'
    exact hcells hcell'
  have hunder : ∀ t ∈ tasks, (v.push tasks).sweep.Under g t (height 0 (g.cell c) 4 0) := by
    intro t ht
    have hkind : t = .cell c .invalidate ∨ t = .cell c .evaluate ∨ t = .releaseCell c := by
      rcases htasks with rfl | ⟨rfl, -⟩
      · simpa using ht
      · cases ht
    have hawake : ∀ cell, w.cell? c = some cell → cell.suspended = false := fun cell hcell =>
      (hw.secluded.batched c).not_suspended (by simp [hquiet]) hcell
    have hpushed : (v.push tasks).Under g t (height 0 (g.cell c) 4 0) := by
      rcases hkind with rfl | rfl | rfl
      · exact fun cell hcell => ⟨hawake cell hcell, le_refl _⟩
      · exact fun cell hcell => ⟨hawake cell hcell, (height_lt_of_rank (by omega)).le⟩
      · trivial
    exact hpushed.sweep fun hcell => hw.secluded.held hcell
  rw [hstep] at hcascading ⊢
  rw [hagenda]
  refine ⟨⟨hcascading, ?_, fun t ht => ?_, ?_⟩, hunder, hcells, fun cell hcell => ?_⟩
  · have harranged : (v.push tasks).Arranged g :=
      ⟨h.arranged.cells, h.arranged.scopes, h.arranged.within, h.arranged.nested⟩
    exact harranged.stay (stays_sweep _)
  · rw [hagenda] at ht
    exact ⟨_, height_lt_of_stage (by omega), hunder t ht⟩
  · rw [hagenda]
    rcases htasks with rfl | ⟨rfl, -⟩ <;> simp
  · have hfound := hcells c cell hcell
    rcases htasks with rfl | ⟨rfl, hstatus⟩
    · exact .inr (.inl ⟨[.cell c .invalidate], hagenda⟩)
    · exact .inl (hstatus cell hfound (hw.secluded.held (by rw [hfound]; rintro ⟨⟩)))

/-- The cells in a list have their turns, one after the other. Those that have had theirs are not
stale, and will not be. -/
structure Recalculates (g : Grading) (ids : List CellId) (w : Workspace) (ops : List Op) : Prop where
  subsides : w.Subsides g
  listed : ∀ c, w.cell? c ≠ none → c ∈ ids
  exists_turns : ∃ past later, ids = past ++ later ∧ ops = later.map .recalculateStale ∧
    ∀ c ∈ past, w.Below g (height 0 (g.cell c) 5 0) ∧ w.Refreshed g c

theorem Recalculates.step (h : w.Recalculates g ids ops) (hbusy : w.agenda ≠ []) :
    w.step.Recalculates g ids ops := by
  obtain ⟨task, rest, hagenda⟩ := List.exists_cons_of_ne_nil hbusy
  obtain ⟨past, later, hids, hops, hpast⟩ := h.exists_turns
  refine ⟨(h.subsides.step hagenda).1, fun c hcell => ?_, past, later, hids, hops, fun c hc => ?_⟩
  · obtain ⟨cell', hcell'⟩ := Option.ne_none_iff_exists'.mp hcell
    obtain ⟨-, -, cell, hfound⟩ :=
      exists_before_step hagenda (h.subsides.answers hagenda) hcell'
    exact h.listed c (by rw [hfound]; rintro ⟨⟩)
  · obtain ⟨hbelow, hrefreshed⟩ := hpast c hc
    exact ⟨hbelow.step h.subsides hagenda, hrefreshed.step h.subsides hbelow hagenda⟩

/-- The next cell has its turn. As it comes after those before, it does not make them stale. -/
theorem Recalculates.call (h : w.Recalculates g ids (op :: ops)) (hquiet : w.agenda = [])
    (hsorted : ids.Pairwise fun c c' => g.cell c' < g.cell c) :
    (w.call op).step.Recalculates g ids ops := by
  obtain ⟨past, later, rfl, hops, hpast⟩ := h.exists_turns
  cases later with
  | nil => cases hops
  | cons c later =>
    obtain ⟨rfl, rfl⟩ := List.cons.inj hops
    obtain ⟨hsubsides, hunder, hcells, hrefreshed⟩ := h.subsides.call hquiet c
    refine ⟨hsubsides, fun c' hcell => ?_, past ++ [c], later, by simp, rfl, fun c' hc' => ?_⟩
    · obtain ⟨cell, hfound⟩ := Option.ne_none_iff_exists'.mp hcell
      exact h.listed c' (by rw [hcells c' cell hfound]; rintro ⟨⟩)
    · rcases List.mem_append.mp hc' with hc' | hc'
      · have hlt : g.cell c < g.cell c' :=
          (List.pairwise_append.mp hsorted).2.2 c' hc' c List.mem_cons_self
        refine ⟨fun t ht => ⟨_, height_lt_of_grade hlt, hunder t ht⟩, fun cell hcell => .inl ?_⟩
        exact (hpast c' hc').2.status_ne hquiet (hcells c' cell hcell)
      · obtain rfl := List.mem_singleton.mp hc'
        exact ⟨fun t ht => ⟨_, height_lt_of_rank (by omega), hunder t ht⟩, hrefreshed⟩

/-- When all have had their turns, no cell is stale. -/
theorem Recalculates.status_ne (h : w.Recalculates g ids []) (hquiet : w.agenda = [])
    (hcell : w.cell? c = some cell) : cell.status ≠ .stale := by
  obtain ⟨past, later, rfl, hops, hpast⟩ := h.exists_turns
  have hlater : later = [] := List.map_eq_nil_iff.mp hops.symm
  subst hlater
  have hc := h.listed c (by rw [hcell]; rintro ⟨⟩)
  rw [List.append_nil] at hc
  exact (hpast c hc).2.status_ne hquiet hcell

end Workspace

namespace Document

open Workspace

variable {d : Document} {settings : DocumentSettings} {backend : Backend}
  {may : Document → Edit → Prop} {c : CellId} {cell : Cell} {s q : ScopeId} {scope inner : Scope}

/-! ### Cells and the scopes around them -/

theorem Nested.ne_root (h : d.Nested) (hs : d.workspace.tree.get? s = some scope)
    (hne : scope.ancestors ≠ []) : s ≠ ScopeTree.rootId := by
  rintro rfl
  obtain ⟨p, further, hancestors⟩ := List.exists_cons_of_ne_nil hne
  exact absurd (h.tends.ready.tied.parent hs hancestors).1 (Nat.not_lt_zero _)

/-- A region starts within all those whose scopes are around its scope. -/
theorem Nested.start_le_of_mem (h : d.Nested)
    (hs : d.workspace.tree.get? s = some scope) (hne : scope.ancestors ≠ [])
    (hq : q ∈ ScopeTree.rootId :: d.regions.map (·.scope))
    (hget : d.workspace.tree.get? q = some inner) (hmem : s ∈ inner.ancestors) :
    scope.start ≤ inner.start := by
  have htied : d.workspace.tree.WellTied := h.tends.ready.tied
  generalize hchain : inner.ancestors = chain at hmem
  induction chain generalizing q inner with
  | nil => cases hmem
  | cons p further ih =>
    obtain ⟨-, around, haround, hfurther⟩ := htied.parent hget hchain
    obtain ⟨hp, hstart⟩ := h.start_le hq hget (by rw [hchain, List.head?_cons])
    have hbefore : p ≠ ScopeTree.rootId → around.start ≤ inner.start := fun hroot =>
      (hstart.resolve_left hroot) around haround
    rcases List.mem_cons.mp hmem with rfl | hmem
    · cases hs.symm.trans haround
      exact hbefore (h.ne_root hs hne)
    · refine Position.le_trans (ih hp haround hfurther hmem) (hbefore (h.ne_root haround ?_))
      rw [hfurther]
      exact List.ne_nil_of_mem hmem

section AtRest

variable (h : Reached settings backend may d) (hbackend : backend.Answering)
  (hquiet : d.workspace.agenda = [])
include h hbackend hquiet

/-- A cell is in the scope that its position belongs to. -/
theorem Reached.cell_scope (hcell : d.workspace.cell? c = some cell) :
    cell.scope = some (d.scopeAt cell.position) := by
  obtain ⟨l, hl⟩ := h.exists_settled hbackend (fun h : False => h.elim) hquiet
  obtain ⟨hmem, hposition⟩ := h.listed hbackend hquiet hcell
  have horder : c ∈ l.order := hl.order ▸ hmem
  rw [hl.tidy.lodged c horder cell hcell, hl.scope c horder, ← hl.positionOf horder, hposition]

/-- The cells inside a scope stand at its start or later. -/
theorem Reached.start_le (hcell : d.workspace.cell? c = some cell)
    (hinside : d.workspace.encloses s cell = true) (hs : d.workspace.tree.get? s = some scope)
    (hne : scope.ancestors ≠ []) : scope.start ≤ cell.position := by
  have hn := h.nested hbackend
  have hscope := h.cell_scope hbackend hquiet hcell
  have hwithin : ∀ {inner}, inner.ancestors ≠ [] →
      d.workspace.tree.get? (d.scopeAt cell.position) = some inner → inner.start ≤ cell.position :=
    fun hne hget => hn.start_le_of_scopeAt (hn.ne_root hget hne) hget
  rcases (encloses_iff hscope).mp hinside with rfl | hmem
  · exact hwithin hne hs
  · cases hget : d.workspace.tree.get? (d.scopeAt cell.position) with
    | none => simp [ScopeTree.ancestors, hget] at hmem
    | some inner =>
      rw [ScopeTree.ancestors_of_get? hget] at hmem
      exact Position.le_trans (hn.start_le_of_mem hs hne (hn.scopeAt_mem _) hget hmem)
        (hwithin (List.ne_nil_of_mem hmem) hget)

/-- The cells of a document whose cells stand in different places are listed by their grades. -/
theorem Reached.pairwise_inOrder (hspaced : d.Spaced) :
    d.cellIds.Pairwise fun c c' => d.workspace.inOrder.cell c' < d.workspace.inOrder.cell c := by
  obtain ⟨l, hl⟩ := h.exists_settled hbackend (fun h : False => h.elim) hquiet
  have horder : d.cellIds = l.order := hl.order
  rw [horder]
  refine (hl.proper.sorted.and hl.proper.nodup).imp_of_mem fun {c c'} hc hc' hboth => ?_
  obtain ⟨hle, hne⟩ := hboth
  obtain ⟨-, cell, hcell, hposition⟩ := hl.tidy.housed.cell hc
  obtain ⟨-, cell', hcell', hposition'⟩ := hl.tidy.housed.cell hc'
  refine inOrder_lt hcell hcell' ?_
  by_contra hlt
  refine hne (hspaced.apart c (horder ▸ hc) c' (horder ▸ hc') ?_)
  rw [hl.positionOf hc, hl.positionOf hc', Position.same_iff]
  rw [hposition, hposition'] at hlt
  exact ⟨hle, Position.not_lt.mp hlt⟩

end AtRest

/-- The cells of a document that is recalculated have their turns in its order. -/
theorem Reached.exists_recalculates (h : Reached settings backend may d)
    (himmediate : backend.Immediate) (hquiet : d.workspace.agenda = []) (hspaced : d.Spaced) :
    ∃ (w : Workspace) (past : List Event),
      d.launch .recalculate =
        w.within past ((d.cellIds.map Op.recalculateStale).map .operate) ∧
      w.Recalculates d.workspace.inOrder d.cellIds (d.cellIds.map .recalculateStale) := by
  have hanswering := himmediate.prompt.answering
  have hplaces := h.spaced_workspace hanswering hquiet hspaced
  have hgrades : d.workspace.Arranged d.workspace.inOrder :=
    arranged_inOrder (h.nested hanswering).tends.ready.tied hplaces fun hcell hinside hs hne =>
      h.start_le hanswering hquiet hcell hinside hs hne
  obtain ⟨w, past, hd, hpassage⟩ := h.exists_passage hanswering hquiet
  have hw : w.agenda = [] := by simpa [hd, within] using hquiet
  have hsame : ∀ c, d.workspace.cell? c = w.cell? c := fun c => by rw [hd]; rfl
  let opened : Workspace := ({ w with history := [] } : Workspace).sweep
  have hopened : opened.agenda = [] := by
    rw [sweep_agenda]
    exact hw
  have hstays : d.workspace.Stays opened := by
    have hswept := ({ w with history := [] } : Workspace).stays_sweep
    refine ⟨fun hcell' => ?_, fun hs => ?_⟩
    · obtain ⟨cell, hcell, hseat⟩ := hswept.cells hcell'
      exact ⟨cell, (hsame _).trans hcell, hseat⟩
    · obtain ⟨scope, hscope, hplace⟩ := hswept.scopes hs
      exact ⟨scope, by rw [hd]; exact hscope, hplace⟩
  have hcascades : opened.Cascades [] :=
    (hpassage.sweep hw).cascades himmediate hopened
      (hplaces.of_positions fun hcell' => by
        obtain ⟨cell, hcell, hposition, -⟩ := hstays.cells hcell'
        exact ⟨cell, hcell, hposition⟩) (by simp) (by simp) (by simp)
  refine ⟨opened, [], ?_, ⟨hcascades.cascading, hgrades.stay hstays, ?_, ?_⟩, fun c hcell => ?_,
    [], d.cellIds, rfl, rfl, by simp⟩
  · have hlaunch : d.launch .recalculate =
        d.workspace.opening (d.entries.map fun entry => .recalculateStale entry.cell) := rfl
    have hops : (d.entries.map fun entry => Op.recalculateStale entry.cell)
        = d.cellIds.map .recalculateStale := by
      rw [cellIds, List.map_map]
      rfl
    rw [hlaunch, hops, hd, opening_within hw, opening_eq hw]
  · rw [Below, hopened]
    simp
  · rw [hopened]
    simp
  · obtain ⟨cell', hcell'⟩ := Option.ne_none_iff_exists'.mp hcell
    obtain ⟨cell, hfound, -⟩ := hstays.cells hcell'
    exact (h.listed hanswering hquiet hfound).1

/-- In a document at rest whose cells stand in different places, over a backend that answers every
command while it is dispatched, recalculation comes to an end, and no cell is stale then. -/
theorem Reached.not_stale_of_recalculate (h : Reached settings backend may d)
    (himmediate : backend.Immediate) (hquiet : d.workspace.agenda = []) (hspaced : d.Spaced) :
    ∃ n, ((d.launch .recalculate).settle n).agenda = [] ∧
      ∀ c cell, ((d.launch .recalculate).settle n).cell? c = some cell → cell.status ≠ .stale := by
  have hedit : ∀ op answers, Edit.recalculate ≠ .answer op answers := by rintro op answers ⟨⟩
  obtain ⟨v, earlier, ops, hcascade, hcascades⟩ :=
    h.exists_cascades himmediate hquiet hspaced hedit trivial
  obtain ⟨n, hends⟩ := hcascades.exists_settle earlier
  rw [← hcascade] at hends
  refine ⟨n, hends, fun c cell hcell => ?_⟩
  obtain ⟨w, past, hlaunch, hrecalculates⟩ := h.exists_recalculates himmediate hquiet hspaced
  have hsorted := h.pairwise_inOrder himmediate.prompt.answering hquiet hspaced
  generalize d.workspace.inOrder = g, d.cellIds = ids at hsorted hrecalculates hlaunch
  obtain ⟨w', past', ops', hsettle, hrecalculates'⟩ := exists_settle_within
    (P := fun w ops => w.Recalculates g ids ops) (fun w ops h hbusy => h.step hbusy)
    (fun w op ops h hquiet => h.call hquiet hsorted) n hrecalculates
  rw [hlaunch, hsettle] at hends hcell
  obtain ⟨hquiet', hops⟩ := List.append_eq_nil_iff.mp hends
  obtain rfl : ops' = [] := List.map_eq_nil_iff.mp hops
  exact hrecalculates'.status_ne hquiet' hcell

/-- A cell with `y := x` at the origin of a document in which cells do not evaluate by themselves,
and one with `x := 1` at some position, made afterwards. -/
def readsLater (p : Position) : Document :=
  Document.new { DocumentSettings.default with calculationMode := .manual } .immediate
    |>.edit (.createCell .origin (.app "Assign" [.symbol "y", .symbol "x"]))
    |>.edit (.createCell p (assignment 1))

/-- If the definition comes first, the cell that reads it has its turn afterwards. -/
theorem not_stale_readsLater : (readsLater ⟨.ofInt 0, .ofInt (-10)⟩).cellIds = [1, 0] ∧
    ((readsLater ⟨.ofInt 0, .ofInt (-10)⟩).workspace.cell? 0).map (·.status) = some .stale ∧
    ∃ n, (((readsLater ⟨.ofInt 0, .ofInt (-10)⟩).launch .recalculate).settle n).agenda = [] ∧
      ∀ c cell, (((readsLater ⟨.ofInt 0, .ofInt (-10)⟩).launch .recalculate).settle n).cell? c
        = some cell → cell.status ≠ .stale := by
  have hreached : Reached { DocumentSettings.default with calculationMode := .manual } .immediate
      (fun _ _ => True) (readsLater ⟨.ofInt 0, .ofInt (-10)⟩) :=
    .edit _ (.edit _ .new rfl trivial) (by decide +kernel) trivial
  have hspaced : (readsLater ⟨.ofInt 0, .ofInt (-10)⟩).Spaced :=
    ⟨by decide +kernel, by decide +kernel⟩
  exact ⟨by decide +kernel, by decide +kernel,
    hreached.not_stale_of_recalculate Backend.immediate_immediate (by decide +kernel) hspaced⟩

/-- If both cells stand in one place, the cell reads the definition all the same, but has its turn
first, and is stale when the definition has got its value. -/
theorem stale_readsLater_origin :
    Reached { DocumentSettings.default with calculationMode := .manual } .immediate
        (fun _ _ => True) (readsLater .origin) ∧
      (readsLater .origin).workspace.agenda = [] ∧
      ((readsLater .origin).edit .recalculate).workspace.agenda = [] ∧
      (((readsLater .origin).edit .recalculate).workspace.cell? 0).map (·.status) = some .stale :=
  ⟨.edit _ (.edit _ .new rfl trivial) (by decide +kernel) trivial, by decide +kernel,
    by decide +kernel, by decide +kernel⟩

/-- The positions and expressions of the cells, in order. -/
def contents (d : Document) : List (Option (Position × Expr)) :=
  d.cellIds.map fun c => (d.workspace.cell? c).map fun cell => (cell.position, cell.expression)

/-- The cells `x := 1/0`, `u := x`, `w := u` and `x := u`, one below the other. -/
def handedOn : Document :=
  Document.new .default .immediate
    |>.edit (.createCell ⟨.ofInt 0, .ofInt 0⟩ (.app "Assign" [.symbol "x",
      .app "Divide" [.number (.ofInt 1), .number (.ofInt 0)]]))
    |>.edit (.createCell ⟨.ofInt 0, .ofInt 2⟩ (.app "Assign" [.symbol "u", .symbol "x"]))
    |>.edit (.createCell ⟨.ofInt 0, .ofInt 3⟩ (.app "Assign" [.symbol "w", .symbol "u"]))
    |>.edit (.createCell ⟨.ofInt 0, .ofInt 4⟩ (.app "Assign" [.symbol "x", .symbol "u"]))

theorem reached_handedOn : Reached .default .immediate (fun _ _ => True) handedOn :=
  ((((Reached.new.edit _ rfl trivial).edit _ (by decide +kernel) trivial).edit _ (by decide +kernel)
    trivial).edit _ (by decide +kernel) trivial)

/-- These cells with `x := 5` at the given height, and `r := x + w` below them. -/
def handedOnTo (height : Int) : Document :=
  handedOn
    |>.edit (.createCell ⟨.ofInt 0, .ofInt height⟩ (assignment 5))
    |>.edit (.createCell ⟨.ofInt 0, .ofInt 7⟩ (.app "Assign" [.symbol "r",
      .app "Add" [.symbol "x", .symbol "w"]]))

/-- Two documents with the same cells. In the first one `x := 5` has gone to the front, and `r` waits,
though it reads what it reads in the other one, where it is done. -/
theorem handedOnTo_ne_moved :
    let moved := (handedOnTo 6).edit (.moveCell (.own 4) ⟨.ofInt 0, .ofInt 1⟩)
    let made := handedOnTo 1
    Reached .default .immediate (fun _ _ => True) moved ∧
      Reached .default .immediate (fun _ _ => True) made ∧
      moved.workspace.agenda = [] ∧ made.workspace.agenda = [] ∧
      moved.regions = made.regions ∧ contents moved = contents made ∧
      (moved.workspace.cell? 5).map (fun cell => (cell.status, moved.workspace.definedInputs cell)) =
        some (.waiting, [("w", .number (.ofInt 5)), ("x", .number (.ofInt 5))]) ∧
      (made.workspace.cell? 5).map (fun cell => (cell.status, made.workspace.definedInputs cell)) =
        some (.done, [("w", .number (.ofInt 5)), ("x", .number (.ofInt 5))]) := by
  have hto : ∀ height, handedOn.workspace.agenda = [] →
      (handedOn.edit (.createCell ⟨.ofInt 0, .ofInt height⟩ (assignment 5))).workspace.agenda = [] →
      Reached .default .immediate (fun _ _ => True) (handedOnTo height) :=
    fun height h h' => (reached_handedOn.edit _ h trivial).edit _ h' trivial
  have hlate := hto 6 (by decide +kernel) (by decide +kernel)
  have hearly := hto 1 (by decide +kernel) (by decide +kernel)
  have hquiet : (handedOnTo 6).workspace.agenda = [] := by decide +kernel
  have hmoved := hlate.edit (.moveCell (.own 4) ⟨.ofInt 0, .ofInt 1⟩) hquiet trivial
  refine ⟨hmoved, hearly, ?_⟩
  clear hmoved hearly hlate hto hquiet
  decide +kernel

end Document

end MathCanvas
