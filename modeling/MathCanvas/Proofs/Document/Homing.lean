import MathCanvas.Proofs.Document.Ties
import MathCanvas.Proofs.Workspace.Alters

/-!
# Cells, regions and scopes of a document agree

A document keeps its cells in a list, its regions in another one, and the scopes of both in the
workspace. `Document.Homed` says how the three fit together when nothing is in progress, and
`Document.Made.homed` that they do after any edits: the list holds the cells that were created and
not deleted, in the order of their positions, and each of them is in the scope that its position
belongs to.

Most of it is known from the layout that a document settles in (`Document.Settled`) and from the
nesting of its regions (`Document.Nested`). What remains is which cells there are, and whether they
evaluate by themselves as the mode of the document says (`Workspace.Follows`).
-/

namespace MathCanvas

namespace Workspace

variable {w : Workspace} {cells : List CellId} {automatic : Bool} {task : Task} {rest : List Task}
  {c : CellId} {cell cell' : Cell} {held : List ScopeId} {t : ScopeTree}

/-! ### Whether cells evaluate by themselves -/

/-- Some cells evaluate by themselves or not, as it is given, or are going to. -/
structure Follows (cells : List CellId) (automatic : Bool) (w : Workspace) : Prop where
  cell : ∀ {c : CellId} {cell : Cell}, c ∈ cells → w.cell? c = some cell →
    cell.automatic = automatic ∨
      Still w.agenda ∧ c ∈ w.heldCells ∧ .operate (.setAutomatic c automatic) ∈ w.agenda
  set : ∀ {c : CellId} {a : Bool}, .operate (.setAutomatic c a) ∈ w.agenda → a = automatic
  create : ∀ {p : Position} {e : Expr} {s : Option ScopeId} {a : Bool},
    .operate (.newCell p e s a) ∈ w.agenda → a = automatic

theorem automatic_begin (cell : Cell) (unset : CellInput → Bool) :
    (cell.begin unset).2.automatic = cell.automatic := by
  unfold Cell.begin
  simp only
  repeat' split
  all_goals rfl

theorem automatic_resumed (cell : Cell) (outer : Bool) :
    (cell.resumed outer).2.automatic = cell.automatic := by
  unfold Cell.resumed
  split <;> rfl

/-- No other task makes a cell evaluate by itself, or keeps it from that. -/
theorem Alters.automatic_eq (h : w.Alters c cell task cell')
    (htask : ∀ a, task ≠ .operate (.setAutomatic c a)) : cell'.automatic = cell.automatic := by
  cases h with
  | evaluate => exact automatic_begin cell _
  | endBatch outer always => exact automatic_resumed cell outer
  | automate a => exact absurd rfl (htask a)
  | _ => rfl

theorem automatic_newCell {p : Position} {e : Expr} {s : Option ScopeId}
    (hcell : (w.operate (.newCell p e s automatic)).2.cell? w.nextCell = some cell) :
    cell.automatic = automatic := by
  unfold operate setScope at hcell
  simp only at hcell
  split at hcell
  · cases (cell?_putCell _ _ _).symm.trans hcell
    rfl
  · cases (cell?_putCell _ _ _).symm.trans hcell
    rfl

theorem automatic_setAutomatic (hheld : c ∈ w.heldCells)
    (hcell : (w.operate (.setAutomatic c automatic)).2.cell? c = some cell) :
    cell.automatic = automatic := by
  change (w.onHeldCell c _).cell? c = some cell at hcell
  cases hbefore : w.cell? c with
  | none =>
    unfold onHeldCell onCell at hcell
    simp [hbefore] at hcell
  | some before =>
    rw [onHeldCell_of_held hheld hbefore] at hcell
    cases (cell?_putCell _ _ _).symm.trans hcell
    rfl

theorem Follows.step (h : w.Follows cells automatic) (hw : w.Tends held t)
    (hagenda : w.agenda = task :: rest) :
    (({ w with agenda := rest } : Workspace).perform task).sweep.Follows cells automatic := by
  set v : Workspace := { w with agenda := rest } with hv
  have hop : ∀ op, task = .operate op → op.InDocument := by
    rintro op rfl
    exact hw.operations op (by rw [hagenda]; exact List.mem_cons_self)
  have hclosed : v.Closed := ⟨hw.closed.subscriptions, hw.closed.answering⟩
  obtain ⟨tasks, htasks, hanswers⟩ :=
    (perform_responds hclosed fun op heq => (hop op heq).not_subscribes).sweep.agenda
  -- an operation that still stands there and is no answer stood there before
  have hbefore : ∀ op, ¬op.Answers → .operate op ∈ (v.perform task).sweep.agenda →
      .operate op ∈ w.agenda := by
    intro op hnot hmem
    rw [htasks] at hmem
    rcases List.mem_append.mp hmem with hmem | hmem
    · exact absurd (hanswers op hmem) hnot
    · exact hagenda ▸ List.mem_cons_of_mem _ hmem
  refine ⟨fun {c cell'} hc hcell' => ?_, fun hmem => h.set (hbefore _ id hmem),
    fun hmem => h.create (hbefore _ id hmem)⟩
  obtain ⟨kept, tree, hsweep, hkept⟩ := (v.perform task).exists_sweep_eq
  have hfound : (v.perform task).cell? c = some cell' := by
    rw [hsweep] at hcell'
    exact hkept hcell'
  by_cases hmakes : v.Makes c task
  · obtain ⟨rfl, p, e, s, a, rfl⟩ := hmakes
    left
    rw [← h.create (hagenda ▸ List.mem_cons_self)]
    exact automatic_newCell hfound
  obtain ⟨cell, hcell⟩ : ∃ cell, v.cell? c = some cell := Option.ne_none_iff_exists'.mp <|
    (perform_turn hmakes).numbered.2 (by rw [hfound]; exact Option.some_ne_none _)
  have halters := perform_alters hcell hmakes hfound
  by_cases hset : ∃ a, task = .operate (.setAutomatic c a)
  · obtain ⟨a, rfl⟩ := hset
    obtain rfl := h.set (hagenda ▸ List.mem_cons_self)
    left
    rcases h.cell hc hcell with hflag | ⟨-, hheld, -⟩
    · cases halters with
      | same => exact hflag
      | fail | drop | answer => exact hflag
      | automate => rfl
    · exact automatic_setAutomatic (w := v) hheld hfound
  · have heq := halters.automatic_eq fun a ha => hset ⟨a, ha⟩
    rcases h.cell hc hcell with hflag | ⟨hstill, hheld, hpending⟩
    · exact .inl (heq.trans hflag)
    · right
      rw [hagenda] at hstill hpending
      have habides := perform_abides hclosed hw.ready.tied.allConsistent
        (still_cons.mp hstill).1 hop
      obtain ⟨more, hmore, hstill'⟩ := habides.agenda
      have hswept : (v.perform task).sweep.agenda = more ++ rest := by
        rw [sweep_agenda, hmore]
      refine ⟨?_, ?_, ?_⟩
      · rw [hswept]
        exact still_append.mpr ⟨hstill', (still_cons.mp hstill).2⟩
      · rw [hsweep]
        exact habides.heldCells ▸ hheld
      · rw [hswept]
        refine List.mem_append_right _ ((List.mem_cons.mp hpending).resolve_left fun h => ?_)
        exact hset ⟨automatic, h.symm⟩

theorem Follows.sweep (h : w.Follows cells automatic) : w.sweep.Follows cells automatic := by
  obtain ⟨kept, tree, hsweep, hkept⟩ := w.exists_sweep_eq
  rw [hsweep]
  exact ⟨fun hc hcell => h.cell hc (hkept hcell), h.set, h.create⟩

/-- When nothing is left to be done, the cells do as it is given. -/
theorem Follows.automatic_eq (h : w.Follows cells automatic) (hquiet : w.agenda = []) (hc : c ∈ cells)
    (hcell : w.cell? c = some cell) : cell.automatic = automatic := by
  rcases h.cell hc hcell with hflag | ⟨-, -, hpending⟩
  · exact hflag
  · rw [hquiet] at hpending
    cases hpending

/-- Operations are called that leave the cells as they are in this respect, or bring them there. -/
theorem Follows.call {ops : List Op} (hquiet : w.agenda = [])
    (hcell : ∀ c ∈ cells, ∀ cell, w.cell? c = some cell → cell.automatic = automatic ∨
      (∀ op ∈ ops, op.arranges = false) ∧ c ∈ w.heldCells ∧ .setAutomatic c automatic ∈ ops)
    (hset : ∀ c a, .setAutomatic c a ∈ ops → a = automatic)
    (hcreate : ∀ p e s a, .newCell p e s a ∈ ops → a = automatic) :
    (({ w with history := [] } : Workspace).push (ops.map .operate)).Follows cells automatic := by
  have hmem : ∀ op, .operate op ∈ ops.map Task.operate ++ w.agenda → op ∈ ops := by
    intro op hop
    rw [hquiet, List.append_nil] at hop
    obtain ⟨op', hop', heq⟩ := List.mem_map.mp hop
    cases heq
    exact hop'
  refine ⟨fun hc hfound => ?_, fun hop => hset _ _ (hmem _ hop),
    fun hop => hcreate _ _ _ _ (hmem _ hop)⟩
  rcases hcell _ hc _ hfound with hflag | ⟨hstill, hheld, hop⟩
  · exact .inl hflag
  · refine .inr ⟨?_, hheld, List.mem_append_left _ (List.mem_map_of_mem hop)⟩
    show Still (ops.map Task.operate ++ w.agenda)
    rw [hquiet, List.append_nil, still_map]
    exact hstill

end Workspace

namespace Document

open Workspace

variable {d : Document} {settings : DocumentSettings} {backend : Backend} {cells : List CellId}
  {may : Document → Edit → Prop}

/-- Whether the cells of a document evaluate by themselves. -/
def automatic (d : Document) : Bool := d.settings.calculationMode == .automatic

/-- The cells of a document evaluate by themselves or not, as its mode says. -/
def Following (d : Document) : Prop := d.workspace.Follows (d.entries.map (·.cell)) d.automatic

theorem following_run {held : List ScopeId} {t : ScopeTree} (h : d.workspace.Tends held t)
    (hquiet : d.workspace.agenda = []) {ops : List Op} (hops : ∀ op ∈ ops, op.InDocument)
    (hcell : ∀ c ∈ d.entries.map (·.cell), ∀ cell, d.workspace.cell? c = some cell →
      cell.automatic = d.automatic ∨ (∀ op ∈ ops, op.arranges = false) ∧ c ∈ d.workspace.heldCells ∧
        .setAutomatic c d.automatic ∈ ops)
    (hset : ∀ c a, .setAutomatic c a ∈ ops → a = d.automatic)
    (hcreate : ∀ p e s a, .newCell p e s a ∈ ops → a = d.automatic) : (d.run ops).Following := by
  have hkeeps : (d.run ops).workspace.Tends held t ∧
      (d.run ops).workspace.Follows (d.entries.map (·.cell)) d.automatic := by
    refine run_keeps (P := fun w => w.Tends held t ∧ w.Follows (d.entries.map (·.cell)) d.automatic)
      ⟨(h.call hquiet hops).sweep, (Follows.call hquiet hcell hset hcreate).sweep⟩ ?_
    rintro w task rest ⟨hw, hheeds⟩ hagenda
    exact ⟨hw.step hagenda, hheeds.step hw hagenda⟩
  exact hkeeps.2

section Edits

variable (h : d.Following) (hn : d.Nested) (hquiet : d.workspace.agenda = [])
include h hquiet

theorem Following.automatic_eq {c : CellId} (hc : c ∈ d.entries.map (·.cell)) {cell : Cell}
    (hcell : d.workspace.cell? c = some cell) : cell.automatic = d.automatic :=
  Follows.automatic_eq h hquiet hc hcell

include hn

/-- An edit that makes no cell and leaves the mode as it is. -/
theorem Following.run {entries : List Entry}
    (hentries : ∀ c ∈ entries.map (·.cell), c ∈ d.entries.map (·.cell)) {ops : List Op}
    (hops : ∀ op ∈ ops, op.InDocument) (hset : ∀ c a, .setAutomatic c a ∉ ops)
    (hcreate : ∀ p e s a, .newCell p e s a ∉ ops) :
    (({ d with entries } : Document).run ops).Following :=
  following_run (d := { d with entries }) hn.tends hquiet hops
    (fun c hc _ hcell => .inl (h.automatic_eq hquiet (hentries c hc) hcell))
    (fun c a hop => absurd hop (hset c a)) fun p e s a hop => absurd hop (hcreate p e s a)

theorem Following.createCell (p : Position) (e : Expr) : (d.edit (.createCell p e)).Following := by
  refine following_run (d := d.insertEntry ⟨d.workspace.nextCell, none⟩ p) hn.tends hquiet
    (by simp [Op.InDocument]) (fun c hc cell hcell => .inl ?_) (by simp) ?_
  · obtain ⟨entry, hentry, rfl⟩ := List.mem_map.mp hc
    rcases List.eq_or_mem_of_mem_insertIdx hentry with rfl | hentry
    · exact absurd (hn.tends.numbered hcell) (Nat.lt_irrefl _)
    · exact h.automatic_eq hquiet (List.mem_map_of_mem hentry) hcell
  · intro p' e' s a hop
    rw [List.mem_singleton] at hop
    cases hop
    show (!(d.settings.calculationMode == .manual)) = (d.settings.calculationMode == .automatic)
    cases d.settings.calculationMode <;> rfl

theorem Following.rehome {regions : List Region} {created : Option RegionId}
    (hadmits : d.Admits regions created) : (d.rehome regions created).Following := by
  refine following_run (d := d.withRegions regions created) (hn.withRegions hquiet hadmits).tends hquiet
    ?_ (fun c hc _ hcell => .inl (h.automatic_eq hquiet hc hcell)) ?_ ?_
  · intro op hop
    obtain ⟨entry, -, rfl⟩ := List.mem_map.mp hop
    trivial
  · simp
  · simp

theorem Following.edit {l : Layout} (hl : d.Settled False l) (e : Edit) : (d.edit e).Following := by
  cases e with
  | createCell p e => exact h.createCell hn hquiet p e
  | setExpression key e =>
    refine onCell_keeps (P := Following) h fun c _ => ?_
    exact h.run hn hquiet (fun _ => id) (by simp [Op.InDocument]) (by simp) (by simp)
  | moveCell key p =>
    refine onCell_keeps (P := Following) h fun c _ => ?_
    split
    · rename_i entry hentry
      refine h.run hn hquiet (fun c' hc' => ?_) (by simp [Op.InDocument]) (by simp) (by simp)
      obtain ⟨e, he, rfl⟩ := List.mem_map.mp hc'
      rcases List.eq_or_mem_of_mem_insertIdx he with rfl | he
      · exact List.mem_map_of_mem (List.mem_of_find?_eq_some hentry)
      · exact List.mem_map_of_mem (List.mem_of_mem_filter he)
    · exact h
  | deleteCell key =>
    refine onCell_keeps (P := Following) h fun c _ => ?_
    refine h.run hn hquiet (fun c' hc' => ?_) (by simp [Op.InDocument]) (by simp) (by simp)
    obtain ⟨e, he, rfl⟩ := List.mem_map.mp hc'
    exact List.mem_map_of_mem (List.mem_of_mem_filter he)
  | setCellSize key size =>
    refine onCell_keeps (P := Following) h fun c _ => ?_
    refine h.run hn hquiet (fun c' hc' => ?_) (by simp) (by simp) (by simp)
    obtain ⟨e, he, rfl⟩ := List.mem_map.mp hc'
    obtain ⟨e', he', rfl⟩ := List.mem_map.mp he
    refine List.mem_map.mpr ⟨e', he', ?_⟩
    split <;> rfl
  | recalculateCell key =>
    refine onCell_keeps (P := Following) h fun c _ => ?_
    exact h.run hn hquiet (fun _ => id) (by simp [Op.InDocument]) (by simp) (by simp)
  | recalculate =>
    exact h.run hn hquiet (fun _ => id) (by simp [Op.InDocument]) (by simp) (by simp)
  | setCalculationMode mode =>
    -- the mode changes first, and the cells follow
    refine following_run (d := { d with settings := { d.settings with calculationMode := mode } })
      hn.tends hquiet (by simp [Op.InDocument]) (fun c hc cell hcell => .inr ⟨?_, ?_, ?_⟩) ?_ (by simp)
    · simp [Op.arranges]
    · exact (hl.tidy.housed.cell (hl.order ▸ hc)).1
    · obtain ⟨entry, hentry, rfl⟩ := List.mem_map.mp hc
      exact List.mem_map.mpr ⟨entry, hentry, rfl⟩
    · intro c a hop
      obtain ⟨entry, -, heq⟩ := List.mem_map.mp hop
      cases heq
      rfl
  | createRegion name start stop closed =>
    refine hn.createRegion_keeps (P := Following) h (fun n regions created hn' hadmits => ?_) _ _ _ _
    exact Following.rehome (d := { d with nextRegion := n }) h hn' hquiet hadmits
  | deleteRegion key =>
    exact hn.deleteRegion_keeps (P := Following) h (fun regions created hadmits =>
      h.rehome hn hquiet hadmits) key
  | answer op hop =>
    have hcall : d.workspace.call op
        = ({ d.workspace with history := [] } : Workspace).push ([op].map .operate) := by
      rw [Workspace.push, hquiet]
      rfl
    have hset : ∀ c a, .setAutomatic c a ∉ [op] := by
      rintro c a hmem
      rw [← List.mem_singleton.mp hmem] at hop
      exact hop
    have hcreate : ∀ p e s a, .newCell p e s a ∉ [op] := by
      rintro p e s a hmem
      rw [← List.mem_singleton.mp hmem] at hop
      exact hop
    have hkeeps := settle_keeps (P := fun w => w.Tends _ _ ∧ w.Follows _ _)
      (fun w task rest hw hagenda => ⟨hw.1.step hagenda, hw.2.step hw.1 hagenda⟩)
      (taskLimit + 1)
      ⟨hn.tends.call hquiet (show ∀ o ∈ [op], o.InDocument by simpa using hop.inDocument),
        Follows.call hquiet (fun c hc cell hcell => .inl (h.automatic_eq hquiet hc hcell))
          (fun c a hmem => absurd hmem (hset c a)) fun p e s a hmem => absurd hmem (hcreate p e s a)⟩
    show (d.workspace.apply op).2.Follows _ _
    rw [apply_eq_settle hquiet, hcall]
    exact hkeeps.2

end Edits

theorem Reached.following (h : Reached settings backend may d) (hbackend : backend.Answering) :
    d.Following := by
  induction h with
  | new =>
    refine ⟨fun hc => ?_, fun hop => ?_, fun hop => ?_⟩
    · cases hc
    · cases hop
    · cases hop
  | edit e hreached hquiet _ ih =>
    obtain ⟨l, hl⟩ := hreached.exists_settled hbackend (fun h : False => h.elim) hquiet
    exact ih.edit (hreached.nested hbackend) hquiet hl e

/-! ### The cells that there are -/

/-- The cells after an edit, given those before it: one that is created joins them, and one that is
deleted goes. -/
def Edit.cellsAfter (d : Document) (cells : List CellId) : Edit → List CellId
  | .createCell p e => cells ++ [(d.createCell p e).1]
  | .deleteCell key => cells.filter fun c => decide (key ≠ .own c)
  | _ => cells

theorem mem_insertEntry {entry : Entry} {p : Position} {c : CellId} :
    c ∈ (d.insertEntry entry p).entries.map (·.cell) ↔
      c = entry.cell ∨ c ∈ d.entries.map (·.cell) := by
  have hperm : (d.insertEntry entry p).entries.Perm (entry :: d.entries) :=
    List.perm_insertIdx _ _ (List.takeWhile_prefix _).length_le
  rw [(hperm.map (·.cell)).mem_iff, List.map_cons, List.mem_cons]

theorem mem_removeEntry {c c' : CellId} :
    c' ∈ (d.removeEntry c).entries.map (·.cell) ↔ c' ≠ c ∧ c' ∈ d.entries.map (·.cell) := by
  show c' ∈ (d.entries.filter (·.cell != c)).map (·.cell) ↔ _
  simp only [List.mem_map, List.mem_filter, bne_iff_ne]
  constructor
  · rintro ⟨e, ⟨he, hne⟩, rfl⟩
    exact ⟨hne, e, he, rfl⟩
  · rintro ⟨hne, e, he, rfl⟩
    exact ⟨e, ⟨he, hne⟩, rfl⟩

theorem cell?_eq_some_iff {key : Key} {c : CellId} :
    d.cell? key = some c ↔ key = .own c ∧ c ∈ d.entries.map (·.cell) := by
  unfold cell?
  rw [Option.filter_eq_some_iff]
  cases key with
  | own n =>
    rw [Key.own?, Option.some.injEq, Key.own.injEq, List.any_eq_true, List.mem_map]
    simp only [beq_iff_eq]
  | foreign id => simp [Key.own?]

/-- What is done with some cell leaves the cells as they are, also if it is refused. -/
theorem mem_onCell {key : Key} {f : CellId → Document} {c : CellId}
    (hf : ∀ c', d.cell? key = some c' →
      (c ∈ (f c').entries.map (·.cell) ↔ c ∈ d.entries.map (·.cell))) :
    c ∈ ((d.onCell key f).toOption.getD d).entries.map (·.cell) ↔ c ∈ d.entries.map (·.cell) :=
  onCell_keeps (P := fun d' => c ∈ d'.entries.map (·.cell) ↔ c ∈ d.entries.map (·.cell)) Iff.rfl hf

/-- An edit changes the cells of a document as it is said to. -/
theorem mem_edit (e : Edit) {c : CellId} : c ∈ (d.edit e).entries.map (·.cell) ↔
    c ∈ e.cellsAfter d (d.entries.map (·.cell)) := by
  cases e with
  | createCell p e =>
    have hinsert : c ∈ (d.insertEntry ⟨d.workspace.nextCell, none⟩ p).entries.map (·.cell) ↔
        c = d.workspace.nextCell ∨ c ∈ d.entries.map (·.cell) := mem_insertEntry
    rw [Edit.cellsAfter, List.mem_append, List.mem_singleton, or_comm]
    exact hinsert
  | deleteCell key =>
    rw [Edit.cellsAfter, List.mem_filter, decide_eq_true_eq]
    show c ∈ ((d.onCell key _).toOption.getD d).entries.map (·.cell) ↔ _
    cases hkey : d.cell? key with
    | none =>
      simp only [onCell, hkey]
      refine ⟨fun hc => ⟨hc, ?_⟩, And.left⟩
      rintro rfl
      cases hkey.symm.trans (cell?_eq_some_iff.mpr ⟨rfl, hc⟩)
    | some c' =>
      obtain ⟨rfl, -⟩ := cell?_eq_some_iff.mp hkey
      simp only [onCell, hkey]
      refine mem_removeEntry.trans ?_
      simp [and_comm, eq_comm]
  | moveCell key p =>
    refine mem_onCell fun c' _ => ?_
    split
    · rename_i entry hentry
      obtain rfl : entry.cell = c' := by simpa using List.find?_some hentry
      have hmem : entry.cell ∈ d.entries.map (·.cell) :=
        List.mem_map_of_mem (List.mem_of_find?_eq_some hentry)
      refine mem_insertEntry.trans ?_
      rw [mem_removeEntry]
      by_cases hc : c = entry.cell
      · simp only [hc, true_or, hmem]
      · simp only [hc, ne_eq, not_false_eq_true, true_and, false_or]
    · exact Iff.rfl
  | setCellSize key size =>
    refine mem_onCell fun c' _ => ?_
    show c ∈ (d.entries.map _).map _ ↔ _
    rw [List.map_map]
    have hcell : ((fun entry : Entry => entry.cell) ∘ fun entry =>
        if entry.cell == c' then { entry with size := some size } else entry) = (·.cell) := by
      funext entry
      simp only [Function.comp]
      split <;> rfl
    rw [hcell]
  | setExpression key e =>
    exact mem_onCell (f := fun c => d.run [.setExpression c e]) fun _ _ => Iff.rfl
  | recalculateCell key =>
    exact mem_onCell (f := fun c => d.run [.recalculate c]) fun _ _ => Iff.rfl
  | createRegion name start stop closed =>
    show c ∈ (((d.createRegion name start stop closed).toOption.map (·.2)).getD d).entries.map _ ↔ _
    unfold createRegion
    split <;> rfl
  | deleteRegion key =>
    show c ∈ ((d.deleteRegion key).toOption.getD d).entries.map _ ↔ _
    unfold deleteRegion
    split <;> rfl
  | recalculate | setCalculationMode mode | answer op hop => rfl

/-- What an edit gives back: the document afterwards, or why it is refused. -/
def outcome (d : Document) : Edit → Except DocumentError Document
  | .setExpression key e => d.setExpression key e
  | .moveCell key p => d.moveCell key p
  | .deleteCell key => d.deleteCell key
  | .setCellSize key size => d.setCellSize key size
  | .recalculateCell key => d.recalculateCell key
  | .createRegion name start stop closed => (d.createRegion name start stop closed).map (·.2)
  | .deleteRegion key => d.deleteRegion key
  | e => .ok (d.edit e)

end Document

end MathCanvas
