import MathCanvas.Proofs.Document.Heirs

/-!
# What a task can bring about

A tariff sets a price on each task of a change that spreads: a number of commands of the cell `d`
that covers all it can bring about (`Workspace.Tariff.Covers`). Prices hold while the task waits:
what is done before its turn only takes listeners away and brings runs on (`Workspace.Wanes`), or
changes the definitions of the cell that the change comes from
(`Workspace.Tariff.Covers.enroll`).
-/

namespace MathCanvas

namespace Workspace

variable {v w w' : Workspace} {origin d c : CellId} {cell cell' : Cell} {s q : ScopeId}
  {name : String} {task : Task} {k : Nat} {readers : List ReaderId}

/-! ### Hearers -/

/-- Whether a cell is there and not suspended. -/
def isAwake (w : Workspace) (c : CellId) : Bool := (w.cell? c).any fun cell => !cell.suspended

/-- The cells that are told of readers and do something about it. -/
def hearers (w : Workspace) (s : ScopeId) (readers : List ReaderId) : List CellId :=
  (readers.flatMap fun r => (w.tree.inputs s r).map (·.1)).filter w.isAwake

theorem isAwake_iff : w.isAwake c = true ↔ ∃ cell, w.cell? c = some cell ∧ cell.suspended = false := by
  simp [isAwake, Option.any_eq_true]

theorem isAwake_of_cell? (hcell : w.cell? c = some cell) :
    w.isAwake c = true ↔ cell.suspended = false := by
  simp [isAwake, hcell]

theorem mem_hearers : c ∈ w.hearers s readers ↔
    (∃ r ∈ readers, ∃ name, .input c name ∈ w.tree.listeners s r) ∧
      ∃ cell, w.cell? c = some cell ∧ cell.suspended = false := by
  simp only [hearers, List.mem_filter, List.mem_flatMap, List.mem_map, Prod.exists,
    exists_and_right, exists_eq_right, ScopeTree.mem_inputs_iff, isAwake_iff]

theorem hearers_cons (r : ReaderId) (readers : List ReaderId) :
    w.hearers s (r :: readers) = w.hearers s [r] ++ w.hearers s readers := by
  simp [hearers]

theorem hearers_sublist (hinputs : ∀ p r, (w'.tree.inputs p r).Sublist (w.tree.inputs p r))
    (hawake : ∀ c, w'.isAwake c = true → w.isAwake c = true) (s : ScopeId)
    (readers : List ReaderId) : (w'.hearers s readers).Sublist (w.hearers s readers) := by
  have hall : (readers.flatMap fun r => (w'.tree.inputs s r).map (·.1)).Sublist
      (readers.flatMap fun r => (w.tree.inputs s r).map (·.1)) := by
    induction readers with
    | nil => exact .refl _
    | cons r rest ih =>
      simp only [List.flatMap_cons]
      exact ((hinputs s r).map _).append ih
  exact (hall.filter w'.isAwake).trans (List.monotone_filter_right _ hawake)

theorem hearers_withTree {tree : ScopeTree} (h : w.tree.ListensLess tree) (s : ScopeId)
    (readers : List ReaderId) :
    (({ w with tree } : Workspace).hearers s readers).Sublist (w.hearers s readers) := by
  refine hearers_sublist ?_ (fun _ hawake => ?_) s readers
  · exact h.inputs
  · exact hawake

/-! ### Prices -/

namespace Tariff

/-- Fewer cells cost less. -/
theorem sum_cell_le (t : v.Tariff origin d) {cells cells' : List CellId} (h : cells.Sublist cells') :
    (cells.map t.cell).sum ≤ (cells'.map t.cell).sum :=
  (h.map t.cell).sum_le_sum fun _ _ => Nat.zero_le _

/-- What a command of a cell counts. -/
def fee (_ : v.Tariff origin d) (c : CellId) : Nat := if c = d then 1 else 0

/-- A price covers all that a task can bring about in a scope. -/
def Covers (t : v.Tariff origin d) (s : ScopeId) (w : Workspace) : Task → Nat → Prop
  | .tell (.input c _) _, k => w.isAwake c = true → t.cell c ≤ k
  | .tell (.importer q _) _, _ => s < q
  | .notifyReaders q readers, k =>
    (readers ≠ [] → s ≤ q) ∧ ((w.hearers q readers).map t.cell).sum ≤ k
  | .write q x _, k => ∃ c cell name, w.cell? c = some cell ∧ cell.suspended = false ∧
      cell.Has name q x .definition ∧ t.name c name ≤ k
  | .cell c .refresh, k | .cell c .reconsider, k | .cell c .evaluate, k => t.cell c ≤ k
  | .cell c (.endBatch _ _), k => c = origin ∧ t.cell c ≤ k
  | .cell c (.advance generation), k => ∀ cell, w.cell? c = some cell →
      generation ≤ cell.generation ∧ (generation = cell.generation →
        ∀ plan, cell.plan = some plan → plan.cost (t.fee c) (t.name c) ≤ k)
  | .operate (.answer (some id) _), k => ∀ command, w.commands.find? id = some command →
      ∀ cell, w.cell? command.cell = some cell → cell.active = some id →
        ∀ plan, cell.plan = some plan → (∃ e, plan.next cell.expression = .request e) ∧
          plan.cost (t.fee command.cell) (t.name command.cell) ≤ t.fee command.cell + k
  | .removeDefinition q x, k => q = s ∧ w.Suspended origin ∧
      ∀ n y, (x, y) ∈ w.tree.sequence q n → (∃ first, v.cell? origin = some first ∧
        first.scope = some q ∧ y = first.position) ∧ t.name origin n ≤ k
  | .moveDefinition q x y, _ => ∀ n z, (x, z) ∈ w.tree.sequence q n → z.same y = true
  | .moveReader q _ _, _ => q = s
  | .operate _, _ | .cell _ .invalidate, _ | .cell _ .synchronize, _ | .cell _ (.enter _), _ =>
    False
  | _, _ => True

/-- Each task of a list has a price that covers it. -/
def CoverAll (t : v.Tariff origin d) (s : ScopeId) (w : Workspace) (tasks : List Task)
    (prices : List Nat) : Prop := List.Forall₂ (t.Covers s w) tasks prices

variable {t : v.Tariff origin d} {tasks : List Task} {prices : List Nat}

theorem CoverAll.imp_of_mem (h : t.CoverAll s w tasks prices)
    (hkept : ∀ {task k}, task ∈ tasks → t.Covers s w task k → t.Covers s w' task k) :
    t.CoverAll s w' tasks prices := by
  induction h with
  | nil => exact .nil
  | cons hcovers _ ih =>
    exact .cons (hkept List.mem_cons_self hcovers) (ih fun ht => hkept (List.mem_cons_of_mem _ ht))

theorem CoverAll.exists_covers (h : t.CoverAll s w tasks prices)
    (hmem : task ∈ tasks) : ∃ k, t.Covers s w task k := by
  obtain ⟨i, hi, rfl⟩ := List.getElem_of_mem hmem
  exact ⟨_, h.get hi (h.length_eq ▸ hi)⟩

theorem CoverAll.of_map {α : Type} {l : List α} {f : α → Task} {price : α → Nat}
    (h : ∀ a ∈ l, t.Covers s w (f a) (price a)) : t.CoverAll s w (l.map f) (l.map price) := by
  rw [CoverAll, List.forall₂_map_left_iff, List.forall₂_map_right_iff, List.forall₂_same]
  exact h

/-- Tasks that cost nothing may stand around others. -/
theorem CoverAll.around {before after : List Task} {prices : List Nat}
    (h : t.CoverAll s w tasks prices) (hbefore : ∀ task ∈ before, t.Covers s w task 0)
    (hafter : ∀ task ∈ after, t.Covers s w task 0) :
    ∃ prices', t.CoverAll s w (before ++ (tasks ++ after)) prices' ∧ prices'.sum = prices.sum := by
  have hfree : ∀ {l : List Task}, (∀ task ∈ l, t.Covers s w task 0) →
      t.CoverAll s w l (l.map fun _ => 0) := by
    intro l hl
    have hall : t.CoverAll s w (l.map id) (l.map fun _ => 0) := CoverAll.of_map hl
    rwa [List.map_id] at hall
  exact ⟨_, List.rel_append (hfree hbefore) (List.rel_append h (hfree hafter)), by simp⟩

end Tariff

/-! ### While tasks wait -/

/-- Cells stay and go on with their runs, and nobody begins to listen or gets a definition. -/
structure Wanes (w w' : Workspace) : Prop extends w.Proceeds w' where
  inputs : ∀ p r, (w'.tree.inputs p r).Sublist (w.tree.inputs p r)
  sequence : ∀ {q : ScopeId} {n : String} {x : SlotId × Position},
    x ∈ w'.tree.sequence q n → x ∈ w.tree.sequence q n
  cost : ∀ {c : CellId} {cell cell' : Cell}, w.cell? c = some cell → w'.cell? c = some cell' →
    cell'.generation = cell.generation → ∀ plan', cell'.plan = some plan' →
    ∃ plan, cell.plan = some plan ∧ ∀ fee price, plan'.cost fee price ≤ plan.cost fee price

namespace Wanes

variable (h : w.Wanes w')
include h

theorem isAwake (hawake : w'.isAwake c = true) : w.isAwake c = true := by
  obtain ⟨cell', hcell', hawake⟩ := isAwake_iff.mp hawake
  obtain ⟨cell, hcell, hcells⟩ := h.cells hcell'
  exact isAwake_iff.mpr ⟨cell, hcell, hcells.suspended.symm.trans hawake⟩

theorem hearers (s : ScopeId) (readers : List ReaderId) :
    (w'.hearers s readers).Sublist (w.hearers s readers) :=
  hearers_sublist h.inputs (fun _ => h.isAwake) s readers

end Wanes

theorem wanes_perform (hsubscriptions : w.subscriptions = #[]) (hprompt : w.backend.Prompt)
    (htied : w.tree.WellTied) (hpasses : task.passes = true)
    (hop : ∀ op, task = .operate op → op.Answers) : w.Wanes (w.perform task) where
  toProceeds := proceeds_perform hsubscriptions hprompt hpasses hop
  inputs := by
    have hheeds : w.Heeds (fun _ => True) True (w.perform task) :=
      w.perform_heeds (fun _ _ => trivial) (fun _ => trivial) fun c s name p heq => by
        rw [heq] at hpasses
        cases hpasses
    exact hheeds.inputs
  sequence {q n x} hx := by
    have hrests : w.Rests (w.perform task) :=
      perform_rests htied (Task.rank_of_passes hpasses) fun op heq => (hop op heq).enlists
    exact (hrests.rolls.enrolled (k := .definition)).mp hx
  cost {c cell cell'} hcell hcell' hgeneration plan' hplan' := by
    have hmakes : ¬w.Makes c task := by
      rintro ⟨-, position, expression, scope, automatic, rfl⟩
      exact hop _ rfl
    have hkept : cell'.plan = cell.plan → ∃ plan, cell.plan = some plan ∧
        ∀ fee price, plan'.cost fee price ≤ plan.cost fee price :=
      fun heq => ⟨plan', heq.symm.trans hplan', fun _ _ => Nat.le_refl _⟩
    cases perform_alters hcell hmakes hcell' with
    | same | told | rest | send | drop => exact hkept rfl
    | invalidate | finish | fail => cases hplan'
    | evaluate =>
      -- a run that begins has another generation
      rw [(cell.begin_run _).1] at hgeneration
      exact absurd hgeneration (Nat.succ_ne_self _)
    | @assign plan target value hplan =>
      cases hplan'
      exact ⟨plan, hplan, fun fee price => plan.cost_complete_le cell.expression value⟩
    | @answer op plan value _ hplan =>
      cases hplan'
      exact ⟨plan, hplan, fun fee price => plan.cost_complete_le cell.expression value⟩
    | enter | synchronize | keepOutput | addInput | endBatch => cases hpasses
    | unregister | edit | move | automate => exact (hop _ rfl).elim

theorem wanes_sweep (htied : w.tree.WellTied)
    (hheld : ∀ {c : CellId}, w.cell? c ≠ none → c ∈ w.heldCells) : w.Wanes w.sweep where
  toProceeds := proceeds_sweep hheld
  inputs := (w.tree_sweep .refl .trans ScopeTree.listensLess_ignoreReader
    ScopeTree.listensLess_remove).inputs
  sequence hx := ((enrolled_sweep (k := .definition) htied).mp hx).1
  cost hcell hcell' _ plan' hplan' := by
    rw [cell?_sweep_of_held (hheld (by rw [hcell]; rintro ⟨⟩)) hcell] at hcell'
    cases hcell'
    exact ⟨plan', hplan', fun _ _ => Nat.le_refl _⟩

namespace Tariff

variable {t : v.Tariff origin d}

/-- What is done before its turn does not make a task dearer. -/
theorem Covers.wane (h : t.Covers s w task k) (hwanes : w.Wanes w')
    (htask : ∀ op, task ≠ .operate op) : t.Covers s w' task k := by
  cases task with
  | operate op => exact absurd rfl (htask op)
  | tell l value =>
    cases l with
    | input c name => exact fun hawake => h (hwanes.isAwake hawake)
    | importer | client => exact h
  | notifyReaders q readers =>
    exact ⟨h.1, (t.sum_cell_le (hwanes.hearers q readers)).trans h.2⟩
  | write q x value =>
    obtain ⟨c, cell, name, hcell, hawake, has, hle⟩ := h
    obtain ⟨cell', hcell'⟩ := Option.ne_none_iff_exists'.mp
      (hwanes.present (by rw [hcell]; rintro ⟨⟩))
    obtain ⟨before, hbefore, hcells⟩ := hwanes.cells hcell'
    cases hcell.symm.trans hbefore
    exact ⟨c, cell', name, hcell', hcells.suspended.trans hawake, hcells.post.has_iff.mpr has, hle⟩
  | cell c driven =>
    cases driven with
    | advance generation =>
      intro cell' hcell'
      obtain ⟨cell, hcell, hcells⟩ := hwanes.cells hcell'
      obtain ⟨hle, hcost⟩ := h cell hcell
      refine ⟨hle.trans hcells.generation, fun heq plan' hplan' => ?_⟩
      -- the cell has begun no other run since
      have hsame : cell'.generation = cell.generation :=
        Nat.le_antisymm (heq ▸ hle) hcells.generation
      obtain ⟨plan, hplan, hless⟩ := hwanes.cost hcell hcell' hsame plan' hplan'
      exact (hless _ _).trans (hcost (heq.trans hsame) plan hplan)
    | _ => exact h
  | removeDefinition q x =>
    obtain ⟨hq, hsuspended, hplace⟩ := h
    exact ⟨hq, hsuspended.proceed hwanes.toProceeds,
      fun n y hx => hplace n y (hwanes.sequence hx)⟩
  | moveDefinition q x y => exact fun n z hx => h n z (hwanes.sequence hx)
  | _ => exact h

/-- Nor does it matter to a task that passes on nothing that somebody is enrolled. -/
theorem Covers.enroll (h : t.Covers s w task k) (htask : task.phase ≠ .talk)
    (hshift : task.rank = .shift → (w.Suspended origin → w'.Suspended origin) ∧
      ∀ {q : ScopeId} {n : String} {x : SlotId × Position},
        x ∈ w'.tree.sequence q n → x ∈ w.tree.sequence q n) : t.Covers s w' task k := by
  cases task with
  | operate | write | tell => exact absurd rfl htask
  | notifyReaders q readers =>
    cases readers with
    | nil => exact h
    | cons => exact absurd rfl htask
  | cell c driven =>
    cases driven with
    | refresh | invalidate | reconsider | evaluate | advance => exact absurd rfl htask
    | _ => exact h
  | removeDefinition q x =>
    obtain ⟨hq, horigin, hplace⟩ := h
    exact ⟨hq, (hshift rfl).1 horigin, fun n y hx => hplace n y ((hshift rfl).2 hx)⟩
  | moveDefinition q x y => exact fun n z hx => h n z ((hshift rfl).2 hx)
  | _ => exact h

theorem Covers.sweep (h : t.Covers s w task k) (htied : w.tree.WellTied)
    (hheld : ∀ {c : CellId}, w.cell? c ≠ none → c ∈ w.heldCells) : t.Covers s w.sweep task k := by
  by_cases hop : ∃ op, task = .operate op
  · obtain ⟨op, rfl⟩ := hop
    obtain ⟨cells, tree, heq, hcells⟩ := w.exists_sweep_eq
    rw [heq]
    cases op with
    | answer id answer =>
      cases id with
      | none => exact h
      | some id => exact fun command hcommand cell hcell => h command hcommand cell (hcells hcell)
    | _ => exact h
  · exact h.wane (wanes_sweep htied hheld) fun op heq => hop ⟨op, heq⟩

end Tariff

end Workspace

end MathCanvas
