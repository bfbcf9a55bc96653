import MathCanvas.Proofs.Scope.Audience
import MathCanvas.Proofs.Workspace.Chronicle
import MathCanvas.Proofs.Workspace.Roles
import Mathlib.Data.Prod.Lex

/-!
# How much a task can set off

A cell that is told of a value tells those that come after it, and each of them can be told many
times before the change is over. What bounds all this is the *height* of a task: the tasks that it
puts on the agenda are lower (`Workspace.Under`). Cells and scopes have *grades*, which fall from
whoever tells to whoever is told, and within a grade a task is the lower the farther the refresh of
the cell has come. The tasks by which cells are enrolled stand above all others, since whoever is
told of what they change may have any grade; they are few, and do not depend on values.
-/

namespace MathCanvas

/-- A backend that answers every command while it is dispatched, and does nothing else. -/
structure Backend.Immediate (backend : Backend) : Prop where
  channel : backend.channel = .direct
  onDispatch : ∀ id command, ∃ answer, (∀ e, answer ≠ .unreadable e) ∧
    backend.onDispatch id command = [.answer (some id) answer]
  onCancel : ∀ id, backend.onCancel id = []

theorem Backend.Immediate.prompt {backend : Backend} (h : backend.Immediate) : backend.Prompt where
  onDispatch id command op hop := by
    obtain ⟨answer, -, heq⟩ := h.onDispatch id command
    rw [heq, List.mem_singleton] at hop
    exact ⟨answer, hop⟩
  onCancel := h.onCancel

theorem Backend.immediate_immediate : Backend.immediate.Immediate where
  channel := rfl
  onDispatch _ _ := ⟨.computed, nofun, rfl⟩
  onCancel _ := rfl

/-! ### Heights -/

/-- How far a cell or a scope is from the last ones that can be told. -/
abbrev Grade := Nat ×ₗ Nat

def grade (row column : Nat) : Grade := toLex (row, column)

/-- How much a task can set off. -/
abbrev Height := Nat ×ₗ Grade ×ₗ Nat ×ₗ Nat

/-- The height in a stage of a change, of a grade, with a rank within the grade and a number of
repetitions. -/
def height (stage : Nat) (grade : Grade) (rank count : Nat) : Height :=
  toLex (stage, toLex (grade, toLex (rank, count)))

/-- The least height in a stage. -/
def Height.floor (stage : Nat) : Height := height stage (grade 0 0) 0 0

section Height

variable {m n i j x y : Nat} {a b : Grade}

theorem grade_lt_iff : grade m x < grade n y ↔ m < n ∨ m = n ∧ x < y := Prod.Lex.toLex_lt_toLex

theorem height_lt_iff : height m a i x < height n b j y ↔
    m < n ∨ m = n ∧ (a < b ∨ a = b ∧ (i < j ∨ i = j ∧ x < y)) := by
  simp only [height, Prod.Lex.toLex_lt_toLex]

theorem height_le_iff : height m a i x ≤ height n b j y ↔
    m < n ∨ m = n ∧ (a < b ∨ a = b ∧ (i < j ∨ i = j ∧ x ≤ y)) := by
  simp only [height, Prod.Lex.toLex_le_toLex]

theorem grade_zero_le (a : Grade) : grade 0 0 ≤ a := by
  rw [grade, Prod.Lex.le_iff]
  simp only [ofLex_toLex]
  omega

theorem Height.floor_zero_le (k : Height) : floor 0 ≤ k := by
  obtain ⟨stage, a, rank, count⟩ := k
  refine height_le_iff.mpr ((Nat.eq_zero_or_pos stage).symm.imp_right fun heq => ⟨heq.symm, ?_⟩)
  exact (grade_zero_le a).lt_or_eq.imp_right fun heq => ⟨heq, by omega⟩

/-- An earlier stage is lower. -/
theorem height_lt_of_stage (h : m < n) : height m a i x < height n b j y :=
  height_lt_iff.mpr (.inl h)

/-- Within a stage, a lower grade is lower. -/
theorem height_lt_of_grade (h : a < b) : height m a i x < height m b j y :=
  height_lt_iff.mpr (.inr ⟨rfl, .inl h⟩)

/-- Within a grade, a lower rank is lower. -/
theorem height_lt_of_rank (h : i < j) : height m a i x < height m a j y :=
  height_lt_iff.mpr (.inr ⟨rfl, .inr ⟨rfl, .inl h⟩⟩)

theorem height_lt_of_count (h : x < y) : height m a i x < height m a i y :=
  height_lt_iff.mpr (.inr ⟨rfl, .inr ⟨rfl, .inr ⟨rfl, h⟩⟩⟩)

/-- Above finitely many grades there is another one. -/
theorem exists_grade_gt {α : Type} (f : α → Grade) (l : List α) : ∃ k, ∀ x ∈ l, f x < k := by
  have hrows : ∃ n, ∀ x ∈ l, (ofLex (f x)).1 < n := by
    induction l with
    | nil => exact ⟨0, by simp⟩
    | cons x rest ih =>
      obtain ⟨n, hn⟩ := ih
      refine ⟨max n ((ofLex (f x)).1 + 1), List.forall_mem_cons.mpr ⟨by omega, fun x' hx' => ?_⟩⟩
      have hlt := hn x' hx'
      omega
  obtain ⟨n, hn⟩ := hrows
  exact ⟨grade n 0, fun x hx => Prod.Lex.lt_iff.mpr (.inl (hn x hx))⟩

end Height

/-- The grades of cells and of scopes. -/
structure Grading where
  cell : CellId → Grade
  scope : ScopeId → Grade

/-- The grade of those who listen. -/
def Grading.of (g : Grading) : Listener → Grade
  | .importer s _ => g.scope s
  | .input c _ => g.cell c
  | .client _ => grade 0 0

namespace Workspace

variable {w w' : Workspace} {g : Grading} {c : CellId} {cell : Cell} {name : String}
  {s : ScopeId} {x : Nat} {l : Listener} {task : Task} {k k' : Height}

/-- Whether a listener does anything about a value. A cell that is suspended only takes note. -/
def Hears (w : Workspace) : Listener → Prop
  | .importer _ _ => True
  | .input c _ => ∃ cell, w.cell? c = some cell ∧ cell.suspended = false
  | .client _ => False

/-- A cell that is there is suspended. -/
def Suspended (w : Workspace) (c : CellId) : Prop :=
  ∀ cell, w.cell? c = some cell → cell.suspended = true

/-- The cell that has a definition or a reader is suspended. -/
def Withholds (w : Workspace) (s : ScopeId) (x : Nat) (role : Role) : Prop :=
  ∀ c cell name, w.cell? c = some cell → cell.Has name s x role → cell.suspended = true

/-- A task of a cell that is not suspended stays under a height. -/
def Drives (g : Grading) (w : Workspace) (c : CellId) (rank : Nat) (k : Height) : Prop :=
  ∀ cell, w.cell? c = some cell → cell.suspended = false ∧ height 0 (g.cell c) rank 0 ≤ k

/-- A task is in place, and what it can set off stays under a height. -/
def Under (g : Grading) (w : Workspace) : Task → Height → Prop
  | .tell l _, k => w.Hears l → height 0 (g.of l) 7 0 ≤ k
  | .notifyReaders s readers, k =>
    ∃ a, (∀ r ∈ readers, ∀ l ∈ w.tree.listeners s r, w.Hears l → g.of l < a) ∧
      height 0 a 0 readers.length ≤ k
  | .notifyDefinition _ _, k => .floor 0 < k
  | .write s x _, k => ∃ c cell name, w.cell? c = some cell ∧ cell.suspended = false ∧
      cell.Has name s x .definition ∧ height 0 (g.cell c) 1 0 ≤ k
  | .cell c .refresh, k => w.Drives g c 6 k
  | .cell c .reconsider, k => w.Drives g c 5 k
  | .cell c .invalidate, k => w.Drives g c 4 k
  | .cell c .evaluate, k => w.Drives g c 3 k
  | .cell c (.advance generation), k => ∀ cell, w.cell? c = some cell →
      cell.suspended = false ∧ generation ≤ cell.generation ∧
        (generation = cell.generation → ∀ plan, cell.plan = some plan →
          height 0 (g.cell c) 2 (2 * plan.stages.length) ≤ k)
  | .operate (.answer (some id) _), k => ∀ command, w.commands.find? id = some command →
      ∀ cell, w.cell? command.cell = some cell → cell.active = some id →
        cell.suspended = false ∧ ∀ plan, cell.plan = some plan → plan.stages ≠ [] ∧
          height 0 (g.cell command.cell) 2 (2 * plan.stages.length - 1) ≤ k
  | .operate _, _ => False
  | .cell _ (.endBatch outer _), k => outer = false ∧ .floor 1 ≤ k
  | .cell c (.addInput _ _ _), k | .cell c (.keepOutput _ _ _), k =>
    w.Suspended c ∧ .floor 1 ≤ k
  | .cell c (.addOutput _ _ _), k => w.Suspended c ∧ .floor 2 ≤ k
  | .cell c .synchronize, k => w.Suspended c ∧ .floor 3 ≤ k
  | .cell _ (.enter _), k => .floor 4 ≤ k
  | .moveDefinition s x _, k => w.Withholds s x .definition ∧ .floor 1 ≤ k
  | .moveReader s x _, k => w.Withholds s x .reader ∧ .floor 1 ≤ k
  | .removeDefinition _ _, k | .removeReader _ _, k | .keepDefinition _ _ _, k => .floor 1 ≤ k
  | .cancel _, _ | .releaseScope _, _ | .releaseCell _, _ => True

theorem Drives.mono {rank : Nat} (h : w.Drives g c rank k) (hk : k ≤ k') : w.Drives g c rank k' :=
  fun cell hcell => ⟨(h cell hcell).1, (h cell hcell).2.trans hk⟩

/-- The height may be greater. -/
theorem Under.mono (h : w.Under g task k) (hk : k ≤ k') : w.Under g task k' := by
  cases task with
  | tell l v => exact fun hhears => (h hhears).trans hk
  | notifyReaders s readers =>
    obtain ⟨a, hlisteners, hle⟩ := h
    exact ⟨a, hlisteners, hle.trans hk⟩
  | notifyDefinition s x => exact lt_of_lt_of_le h hk
  | write s x v =>
    obtain ⟨c, cell, name, hcell, hawake, has, hle⟩ := h
    exact ⟨c, cell, name, hcell, hawake, has, hle.trans hk⟩
  | cell c driven =>
    cases driven with
    | refresh | reconsider | evaluate | invalidate => exact Drives.mono h hk
    | advance generation =>
      intro cell hcell
      obtain ⟨hawake, hle, hlow⟩ := h cell hcell
      exact ⟨hawake, hle, fun heq plan hplan => (hlow heq plan hplan).trans hk⟩
    | enter => exact le_trans h hk
    | _ => exact ⟨h.1, h.2.trans hk⟩
  | operate op =>
    cases op with
    | answer id answer =>
      cases id with
      | none => exact h
      | some id =>
        intro command hcommand cell hcell hactive
        obtain ⟨hawake, hlow⟩ := h command hcommand cell hcell hactive
        exact ⟨hawake, fun plan hplan => (hlow plan hplan).imp_right fun hle => hle.trans hk⟩
    | _ => exact h
  | moveDefinition | moveReader => exact ⟨h.1, h.2.trans hk⟩
  | removeDefinition | removeReader | keepDefinition => exact le_trans h hk
  | _ => trivial

/-- Only the tree, the cells and the commands matter. -/
theorem Under.of_same (h : w.Under g task k) (htree : w'.tree = w.tree)
    (hcells : w'.cells = w.cells) (hcommands : w'.commands = w.commands) : w'.Under g task k := by
  have hcell : ∀ c, w'.cell? c = w.cell? c := fun c => by rw [cell?, hcells, cell?]
  have hhears : ∀ {l}, w'.Hears l → w.Hears l := by
    intro l hl
    cases l with
    | input c name =>
      obtain ⟨cell, hfound, hl⟩ := hl
      exact ⟨cell, hcell c ▸ hfound, hl⟩
    | _ => exact hl
  have hdrives : ∀ {c rank}, w.Drives g c rank k → w'.Drives g c rank k :=
    fun h cell hfound => h cell (hcell _ ▸ hfound)
  have hsuspended : ∀ {c}, w.Suspended c → w'.Suspended c :=
    fun h cell hfound => h cell (hcell _ ▸ hfound)
  have hwithholds : ∀ {s x role}, w.Withholds s x role → w'.Withholds s x role :=
    fun h c cell name hfound => h c cell name (hcell c ▸ hfound)
  cases task with
  | tell l v => exact fun hl => h (hhears hl)
  | notifyReaders s readers =>
    obtain ⟨a, hlisteners, hle⟩ := h
    refine ⟨a, fun r hr l hl hheard => hlisteners r hr l (htree ▸ hl) (hhears hheard), hle⟩
  | write s x v =>
    obtain ⟨c, cell, name, hfound, hwrite⟩ := h
    exact ⟨c, cell, name, (hcell c).trans hfound, hwrite⟩
  | cell c driven =>
    cases driven with
    | refresh | reconsider | evaluate | invalidate => exact hdrives h
    | advance generation => exact fun cell hfound => h cell (hcell c ▸ hfound)
    | synchronize | addOutput | addInput | keepOutput => exact ⟨hsuspended h.1, h.2⟩
    | enter | endBatch => exact h
  | operate op =>
    cases op with
    | answer id answer =>
      cases id with
      | none => exact h
      | some id =>
        intro command hcommand cell hfound
        exact h command (hcommands ▸ hcommand) cell (hcell _ ▸ hfound)
    | _ => exact h
  | moveDefinition | moveReader => exact ⟨hwithholds h.1, h.2⟩
  | _ => exact h

end Workspace

end MathCanvas
