import MathCanvas.Proofs.Workspace.Allotment
import MathCanvas.Proofs.Workspace.Supplies

/-!
# Who is enrolled when nothing is in progress

In a chronicle, when nothing is in progress, each cell in a scope has one definition there for every
name that its expression writes and one reader for every name that it reads, each at its place, and a
cell without a scope has nothing (`Workspace.Registered`). Nobody else is enrolled but importers, the
client, and what was left behind: a `Workspace.Ledger` is a chronicle that notes what cells have when
the client lets go of them.
-/

namespace MathCanvas

namespace Workspace

variable {w : Workspace} {backend : Backend} {may : Workspace → Op → Prop} {deeds : List Deed}
  {left : Role → ScopeId → Nat → Prop} {task : Task} {rest : List Task} {c : CellId} {cell : Cell}

/-! ### Chronicles -/

theorem Chronicle.posted (h : Chronicle backend may deeds w) (hprompt : backend.Prompt) :
    w.Posted w.agenda := by
  induction h with
  | start => exact .start backend
  | call op _ hquiet _ _ ih => exact ih.call hquiet op
  | step hbefore hagenda ih =>
    obtain ⟨hsecluded, -, past, hrun⟩ := hbefore.exists_run hprompt
    exact ih.step hagenda hrun.ready hrun.apportioned fun op heq =>
      (hsecluded.answers_or_quiet hagenda heq).2.imp_left Op.Answers.enlists

theorem Chronicle.supplies (h : Chronicle backend may deeds w) (hprompt : backend.Prompt) :
    w.Supplies w.agenda := by
  induction h with
  | start =>
    intro c cell hcell
    simp [cell?] at hcell
  | call op _ hquiet _ _ ih => exact ih.call hquiet op
  | @step deeds w task rest hbefore hagenda ih =>
    obtain ⟨hsecluded, -, -⟩ := hbefore.exists_run hprompt
    have hposted := hbefore.posted hprompt
    rw [step_of_agenda hagenda]
    rw [hagenda] at ih hposted
    have hpopped : ({ w with agenda := rest } : Workspace).Supplies (task :: rest) :=
      ih.of_tasks rfl fun _ => .rfl
    exact (hpopped.perform hsecluded.ready.tied (hposted.of_same rfl rfl rfl rfl)
      fun hcell hcell' hedit => hbefore.blanked_perform hprompt hagenda hcell hcell' hedit).sweep

/-! ### What is left behind -/

/-- A chronicle that notes what cells have when the client lets go of them. -/
inductive Ledger (backend : Backend) : (Role → ScopeId → Nat → Prop) → Workspace → Prop
  | start : Ledger backend (fun _ _ _ => False) { backend }
  | call {left : Role → ScopeId → Nat → Prop} {w : Workspace} (op : Op) : Ledger backend left w →
      w.agenda = [] → ¬op.Subscribes → Ledger backend left (w.call op)
  | step {left : Role → ScopeId → Nat → Prop} {w : Workspace} {task : Task} {rest : List Task} :
      Ledger backend left w → w.agenda = task :: rest →
      Ledger backend (fun k s x => left k s x ∨ w.Abandons task k s x) w.step

theorem Ledger.exists_chronicle (h : Ledger backend left w) :
    ∃ deeds, Chronicle backend (fun _ _ => True) deeds w := by
  induction h with
  | start => exact ⟨_, .start⟩
  | call op _ hquiet hop ih => exact ih.imp fun _ h => h.call op hquiet hop trivial
  | step _ hagenda ih =>
    obtain ⟨deeds, h⟩ := ih
    exact ⟨_, h.step hagenda⟩

theorem Ledger.settle (h : Ledger backend left w) (n : Nat) :
    ∃ left, Ledger backend left (w.settle n) := by
  induction n generalizing left w with
  | zero => exact ⟨left, by simpa [Workspace.settle] using h⟩
  | succ n ih =>
    cases hagenda : w.agenda with
    | nil => exact ⟨left, by simpa [Workspace.settle, hagenda] using h⟩
    | cons task rest =>
      rw [settle_succ hagenda]
      exact ih (h.step hagenda)

theorem Allotted.start (backend : Backend) :
    ({ backend } : Workspace).Allotted [] fun _ _ _ => False where
  manned hmem := by simp at hmem
  belongs {s x name y k} hx := by
    -- the root is the only scope, and nobody is enrolled in it
    obtain ⟨scope, hs⟩ := Option.ne_none_iff_exists'.mp hx.get?_ne_none
    obtain ⟨rfl, rfl⟩ := get?_root_eq_some hs
    cases k with
    | definition =>
      rw [ScopeTree.enrolled_definition, ScopeTree.sequence_of_get? hs] at hx
      simp [Bindings.sequence, Bindings.slotsOf] at hx
    | reader =>
      have hanchor := hx.1
      rw [ScopeTree.anchor?_of_get? hs] at hanchor
      simp [Bindings.anchor?] at hanchor

theorem Allotted.call (h : w.Allotted w.agenda left) (hquiet : w.agenda = []) (op : Op) :
    (w.call op).Allotted (w.call op).agenda left := by
  rw [hquiet] at h
  refine h.mono (fun hmem => ?_) (fun hx => .inl ⟨_, _, hx⟩)
    (fun {c _ _ _ _ _} hcell has => .cell (c := c) hcell has) (fun _ => id) (fun _ => id) (fun hmem => ?_)
    (fun _ hmem => ?_) id
  · simp [Workspace.call] at hmem
  · cases hmem
  · cases hmem

theorem Ledger.allotted (h : Ledger backend left w) (hprompt : backend.Prompt) :
    w.Allotted w.agenda left := by
  induction h with
  | start => exact .start backend
  | call op _ hquiet _ ih => exact ih.call hquiet op
  | step hbefore hagenda ih =>
    obtain ⟨deeds, hchronicle⟩ := hbefore.exists_chronicle
    exact ih.step hagenda (hchronicle.exists_run hprompt).1 (hchronicle.posted hprompt)

/-! ### When nothing is in progress -/

/-- What is enrolled in the scopes is what cells want of them, what importers read, and what the client
has or left behind. -/
structure Registered (w : Workspace) (left : Role → ScopeId → Nat → Prop) : Prop where
  /-- A cell without a scope has nothing. -/
  detached : ∀ {c : CellId} {cell : Cell}, w.cell? c = some cell → cell.scope = none →
    ∀ n s x k, ¬cell.Has n s x k
  /-- A cell in a scope has one definition for each name that its expression writes, and one reader for
  each name that it reads, and nothing else. -/
  named : ∀ {c : CellId} {cell : Cell} {s : ScopeId}, w.cell? c = some cell →
    cell.scope = some s → ∀ n k, if n ∈ cell.wants k then
      ∃ x, ∀ q u, cell.Has n q u k ↔ q = s ∧ u = x else ∀ q u, ¬cell.Has n q u k
  /-- They are in that scope: a definition at the position of the cell, and a reader there too, or just
  before it if the expression also writes the name. -/
  placed : ∀ {c : CellId} {cell : Cell} {n : String} {s : ScopeId} {x : Nat} {k : Role},
    w.cell? c = some cell → cell.Has n s x k →
    cell.scope = some s ∧ w.tree.Enrolled s x n (cell.place n k) k
  /-- No two cells, and no two names of one cell, share a definition or a reader. -/
  apart : ∀ {c c' : CellId} {cell cell' : Cell} {n n' : String} {s : ScopeId} {x : Nat} {k : Role},
    w.cell? c = some cell → w.cell? c' = some cell' → cell.Has n s x k → cell'.Has n' s x k →
    c = c' ∧ n = n'
  definition : ∀ {s : ScopeId} {x : SlotId} {n : String} {y : Position},
    (x, y) ∈ w.tree.sequence s n →
    (∃ c cell, w.cell? c = some cell ∧ cell.Has n s x .definition) ∨
      (∃ handle ∈ w.definitions, handle.scope = s ∧ handle.slot = x) ∨ left .definition s x
  reader : ∀ {s : ScopeId} {r : ReaderId} {n : String} {y : Position},
    w.tree.anchor? s r = some (n, y) →
    (∃ c cell, w.cell? c = some cell ∧ cell.Has n s r .reader) ∨
      (∃ child scope, w.tree.get? child = some scope ∧ scope.closed = false ∧
        w.tree.Feeds s r child n ∧ y = scope.start) ∨
      (∃ handle ∈ w.readers, handle.scope = s ∧ handle.reader = r) ∨ left .reader s r

/-- What a cell has of a name is one thing. -/
theorem has_unique {n : String} {s q : ScopeId} {x u : Nat} {k : Role} (hx : cell.Has n s x k)
    (hu : cell.Has n q u k) : q = s ∧ u = x := by
  cases k with
  | definition => simpa using Option.some.inj (hu.symm.trans hx)
  | reader => simpa using Option.some.inj (hu.symm.trans hx)

/-- In a scope, what is to have a place has it. -/
theorem stand_eq_place {n : String} {k : Role}
    (hwrites : ∀ n, n ∈ cell.expression.writtenNames ↔ n ∈ cell.outputs.keys) :
    cell.stand n k = cell.place n k := by
  cases k with
  | definition => rfl
  | reader =>
    have hcontains : cell.outputs.keys.contains n = cell.expression.writtenNames.contains n := by
      rw [Bool.eq_iff_iff, List.contains_iff_mem, List.contains_iff_mem, hwrites]
    rw [Cell.stand, Cell.place, Cell.readPosition, Cell.readPosition, hcontains]

/-- A reader that feeds an importer stands where the scope of the importer starts, which is open. -/
theorem exists_open_of_feeds {t : ScopeTree} (htied : t.WellTied) {s child : ScopeId}
    {r : ReaderId} {n n' : String} {y : Position} (hanchor : t.anchor? s r = some (n, y))
    (hfeeds : t.Feeds s r child n') : ∃ child scope, t.get? child = some scope ∧
      scope.closed = false ∧ t.Feeds s r child n ∧ y = scope.start := by
  obtain ⟨around, scope, hs, hchild, hat, -⟩ := htied.fed hfeeds
  rw [ScopeTree.anchor?_of_get? hs, hat] at hanchor
  simp only [Option.some.injEq, Prod.mk.injEq] at hanchor
  obtain ⟨rfl, rfl⟩ := hanchor
  refine ⟨child, scope, hchild, ?_, hfeeds, rfl⟩
  obtain ⟨scope', hchild', -, himports⟩ := hfeeds
  cases hchild.symm.trans hchild'
  exact ((htied.exact not_false hchild).imports_iff.mp ⟨r, himports⟩).1

/-- When nothing is in progress, a cell in a scope has one thing for each name that it wants. -/
theorem Chronicle.named (h : Chronicle backend may deeds w) (hprompt : backend.Prompt)
    (hquiet : w.agenda = []) (hcell : w.cell? c = some cell) {s : ScopeId}
    (hscope : cell.scope = some s) (n : String) (k : Role) :
    if n ∈ cell.wants k then ∃ x, ∀ q u, cell.Has n q u k ↔ q = s ∧ u = x
    else ∀ q u, ¬cell.Has n q u k := by
  have hwants := (h.supplies hprompt).mem_wants_iff hquiet hcell (by rw [hscope]; rintro ⟨⟩) n k
  split
  · rename_i hname
    obtain ⟨q, x, has⟩ := hwants.mp hname
    have hplaced := ((h.posted hprompt).enrolled hquiet hcell has).1
    obtain rfl := Option.some.inj (hscope.symm.trans hplaced)
    refine ⟨x, fun q' u => ⟨has_unique has, ?_⟩⟩
    rintro ⟨rfl, rfl⟩
    exact has
  · rename_i hname
    exact fun q u has => hname (hwants.mpr ⟨q, u, has⟩)

/-- When nothing is in progress, what a cell has is where it is to be. -/
theorem Chronicle.placed (h : Chronicle backend may deeds w) (hprompt : backend.Prompt)
    (hquiet : w.agenda = []) (hcell : w.cell? c = some cell) {n : String} {s : ScopeId} {x : Nat}
    {k : Role} (has : cell.Has n s x k) :
    cell.scope = some s ∧ w.tree.Enrolled s x n (cell.place n k) k := by
  obtain ⟨hscope, hat⟩ := (h.posted hprompt).enrolled hquiet hcell has
  have hstand : cell.stand n k = cell.place n k := stand_eq_place fun n' => by
    have hwants := (h.supplies hprompt).mem_wants_iff hquiet hcell (by rw [hscope]; rintro ⟨⟩) n'
      .definition
    refine hwants.trans ((mem_keys_iff_lookup ..).trans ⟨?_, ?_⟩).symm
    · rintro ⟨o, ho⟩
      exact ⟨o.scope, o.slot, ho⟩
    · rintro ⟨q, u, ho⟩
      exact ⟨_, ho⟩
  exact ⟨hscope, hstand ▸ hat⟩

/-- When nothing is in progress, what was made for others than an importer belongs to a cell or to the
client, or is left behind. -/
theorem Ledger.owner (h : Ledger backend left w) (hprompt : backend.Prompt)
    (hquiet : w.agenda = []) {s : ScopeId} {x : Nat} {n : String} {y : Position} {k : Role}
    (hx : w.tree.Enrolled s x n y k) :
    (∃ c cell, w.cell? c = some cell ∧ cell.Has n s x k) ∨
      (k = .definition ∧ ∃ handle ∈ w.definitions, handle.scope = s ∧ handle.slot = x) ∨
      (k = .reader ∧ ∃ handle ∈ w.readers, handle.scope = s ∧ handle.reader = x) ∨ left k s x := by
  obtain ⟨deeds, hchronicle⟩ := h.exists_chronicle
  obtain ⟨-, -, past, hrun⟩ := hchronicle.exists_run hprompt
  cases (h.allotted hprompt).belongs hx with
  | @cell c cell n' _ _ _ hcell has =>
    obtain ⟨-, hat⟩ := (hchronicle.posted hprompt).enrolled hquiet hcell has
    obtain rfl := (hx.unique hrun.ready.tied.allConsistent hat).1
    exact .inl ⟨c, cell, hcell, has⟩
  | definition hmem => exact .inr (.inl ⟨rfl, _, hmem, rfl, rfl⟩)
  | reader hmem => exact .inr (.inr (.inl ⟨rfl, _, hmem, rfl, rfl⟩))
  | promised hmem | removing hmem =>
    rw [hquiet] at hmem
    cases hmem
  | left is_left => exact .inr (.inr (.inr is_left))

/-- In every ledger, when nothing is in progress, those who are enrolled are the cells with what their
expressions name, the importers, and what the client has or left behind. -/
theorem Ledger.registered (h : Ledger backend left w) (hprompt : backend.Prompt)
    (hquiet : w.agenda = []) : w.Registered left := by
  obtain ⟨deeds, hchronicle⟩ := h.exists_chronicle
  obtain ⟨-, -, past, hrun⟩ := hchronicle.exists_run hprompt
  have hposted := hchronicle.posted hprompt
  have htied := hrun.ready.tied
  refine {
    detached := fun hcell hscope n s x k has => ?_
    named := fun hcell hscope => hchronicle.named hprompt hquiet hcell hscope
    placed := fun hcell has => hchronicle.placed hprompt hquiet hcell has
    apart := fun hcell hcell' has has' => ?_
    definition := fun hx => ?_
    reader := fun {s r n y} hanchor => ?_ }
  · cases hscope.symm.trans (hposted.enrolled hquiet hcell has).1
  · obtain rfl := hposted.owner_eq hrun.apportioned hcell hcell' has has'
    cases hcell.symm.trans hcell'
    exact ⟨rfl, hposted.name_eq htied.allConsistent hcell has has'⟩
  · rcases h.owner hprompt hquiet (k := .definition) hx with hcell | ⟨-, hhandle⟩ | ⟨hk, -⟩ | hleft
    · exact .inl hcell
    · exact .inr (.inl hhandle)
    · cases hk
    · exact .inr (.inr hleft)
  · by_cases hfeeds : ∃ child n', w.tree.Feeds s r child n'
    · obtain ⟨child, n', hfeeds⟩ := hfeeds
      exact .inr (.inl (exists_open_of_feeds htied hanchor hfeeds))
    · have hx : w.tree.Enrolled s r n y .reader :=
        ⟨hanchor, fun child n' hfed => hfeeds ⟨child, n', hfed⟩⟩
      rcases h.owner hprompt hquiet hx with hcell | ⟨hk, -⟩ | ⟨-, hhandle⟩ | hleft
      · exact .inl hcell
      · cases hk
      · exact .inr (.inr (.inl hhandle))
      · exact .inr (.inr (.inr hleft))

/-- The cell `x := x` in an open scope inside the root: its reader of `x` does not see its own
definition, and through the importer it reads the `x` of the root. -/
theorem registered_nested :
    let made := (({ backend := .immediate } : Workspace).call (.child 0 "inner" .origin false)).settle 1
    let w := (made.call (.newCell .origin (.app "Assign" [.symbol "x", .symbol "x"]) (some 1) true)).settle
      23
    ∃ left, Ledger .immediate left w ∧ w.agenda = [] ∧ w.Registered left ∧
      (w.tree.sequence 1 "x").length = 1 ∧ w.tree.anchor? 1 2 = some ("x", Position.origin.justBefore) ∧
      w.tree.anchor? 0 1 = some ("x", .origin) := by
  intro made w
  have hprompt : Backend.immediate.Prompt := ⟨fun _ _ op hop => ⟨_, List.mem_singleton.mp hop⟩, fun _ => rfl⟩
  obtain ⟨left, hmade⟩ := (Ledger.start.call (.child 0 "inner" .origin false) rfl not_false).settle 1
  have hrested : made.agenda = [] := by decide +kernel
  obtain ⟨left, hw⟩ := (hmade.call
    (.newCell .origin (.app "Assign" [.symbol "x", .symbol "x"]) (some 1) true) hrested not_false).settle 23
  have hquiet : w.agenda = [] := by decide +kernel
  exact ⟨left, hw, hquiet, hw.registered hprompt hquiet, by decide +kernel⟩

/-- The client lets go of the cell `x := y` while it is in the root. The cell is gone, but its
definition of `x` and its reader of `y` stay. -/
theorem enrolled_dropped :
    let made := (({ backend := .immediate } : Workspace).call
      (.newCell .origin (.app "Assign" [.symbol "x", .symbol "y"]) (some 0) true)).settle 23
    let w := (made.call (.dropCell 0)).settle 1
    (∃ left, Ledger .immediate left w) ∧ w.agenda = [] ∧ w.cells.isEmpty = true ∧
      w.definitions = #[] ∧ w.readers = #[] ∧ w.tree.scopes.keys = [0] ∧
      w.tree.sequence 0 "x" = [(1, .origin)] ∧ w.tree.anchor? 0 3 = some ("y", .origin) := by
  intro made w
  obtain ⟨left, hmade⟩ := (Ledger.start.call
    (.newCell .origin (.app "Assign" [.symbol "x", .symbol "y"]) (some 0) true) rfl not_false).settle 23
  have hrested : made.agenda = [] := by decide +kernel
  exact ⟨(hmade.call (.dropCell 0) hrested not_false).settle 1, by decide +kernel⟩

end Workspace

end MathCanvas
