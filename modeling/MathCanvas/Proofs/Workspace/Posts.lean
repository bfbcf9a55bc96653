import MathCanvas.Proofs.Workspace.Owners
import MathCanvas.Proofs.Workspace.Places
import MathCanvas.Proofs.Workspace.Roles

/-!
# Where cells are enrolled

A cell has its inputs and outputs in the scope in which it is: its outputs at its position, and its
inputs there or just before, so as not to see its own outputs. While it is brought in step with its
expression this is not so yet, but the tasks on the agenda are going to make it so
(`Workspace.Posted`). Nobody else has what a cell has, and no task is going to remove it.
-/

namespace MathCanvas

variable {agenda agenda' rest : List Task} {c c' : CellId} {cell cell' : Cell}
  {name n : String} {s q : ScopeId} {x u : Nat} {y z : Position} {role k : Role} {task : Task}

/-- A cell has an output of a name, or is going to have one. -/
def Writes (agenda : List Task) (c : CellId) (cell : Cell) (name : String) : Prop :=
  cell.outputs[name]? ≠ none ∨ ∃ task ∈ agenda, task.output? = some (c, name)

/-- The position at which a cell is to have an output or an input. -/
def Aims (agenda : List Task) (c : CellId) (cell : Cell) (name : String) (y : Position) :
    Role → Prop
  | .definition => y = cell.position
  | .reader => (Writes agenda c cell name → y = cell.position.justBefore) ∧
      (¬Writes agenda c cell name → y = cell.position)

theorem writes_of_subset (hsub : ∀ task ∈ agenda', task.rank ≠ .idle → task ∈ agenda)
    (h : Writes agenda' c cell name) : Writes agenda c cell name := by
  refine h.imp_right ?_
  rintro ⟨task, htask, houtput⟩
  exact ⟨task, hsub task htask (Task.rank_ne_idle_of_output? houtput), houtput⟩

theorem Aims.congr (h : Aims agenda c cell name y role) (hposition : cell'.position = cell.position)
    (hwrites : Writes agenda' c cell' name ↔ Writes agenda c cell name) :
    Aims agenda' c cell' name y role := by
  cases role with
  | definition => exact h.trans hposition.symm
  | reader => rwa [Aims, hwrites, hposition]

/-- What a cell has is going to be moved to its position. -/
def Awaits (agenda : List Task) (c : CellId) (s : ScopeId) (x : Nat) (role : Role) : Prop :=
  .cell c .synchronize ∈ agenda ∨ ∃ y, role.moving s x y ∈ agenda

namespace Workspace

variable {w w' : Workspace}

/-- The cells are enrolled in their scopes, each at its position, or are going to be. -/
structure Posted (w : Workspace) (agenda : List Task) : Prop where
  queued : Queued agenda
  held : ∀ {s : ScopeId}, s ∈ w.heldScopes → w.tree.get? s ≠ none
  housed : ∀ {c : CellId} {cell : Cell} {s : ScopeId}, w.cell? c = some cell →
    cell.scope = some s → w.tree.get? s ≠ none
  entering : ∀ {c : CellId} {scope : Option ScopeId}, .cell c (.enter scope) ∈ agenda →
    (∀ s, scope = some s → w.tree.get? s ≠ none) ∧
    ∀ {cell : Cell} {name : String} {s : ScopeId} {x : Nat} {k : Role},
      w.cell? c = some cell → ¬cell.Has name s x k
  entry : ∀ {c : CellId} {cell : Cell} {name : String} {s : ScopeId} {x : Nat} {k : Role},
    w.cell? c = some cell → cell.Has name s x k →
    cell.scope = some s ∧ ∃ y, w.tree.Enrolled s x name y k ∧
      (k = .definition → y = cell.position ∨ y.same cell.position = false) ∧
      (¬Awaits agenda c s x k → Aims agenda c cell name y k)
  moving : ∀ {c : CellId} {cell : Cell} {name : String} {s : ScopeId} {x : Nat} {y : Position}
    {k : Role}, k.moving s x y ∈ agenda → w.cell? c = some cell →
    cell.Has name s x k → Aims agenda c cell name y k
  removing : ∀ {c : CellId} {cell : Cell} {name : String} {s : ScopeId} {x : Nat} {k : Role},
    k.removing s x ∈ agenda → w.cell? c = some cell → ¬cell.Has name s x k
  adding : ∀ {c : CellId} {cell : Cell} {name : String} {s : ScopeId} {y : Position} {k : Role},
    k.adding c s name y ∈ agenda → w.cell? c = some cell →
    cell.scope = some s ∧ Aims agenda c cell name y k
  keeping : ∀ {c : CellId} {cell : Cell} {name : String} {s : ScopeId} {x : SlotId},
    .cell c (.keepOutput s name x) ∈ agenda → w.cell? c = some cell →
    cell.scope = some s ∧ cell.outputs[name]? = none ∧
      w.tree.Enrolled s x name cell.position .definition
  /-- An input belongs to one cell. -/
  apart : ∀ {c c' : CellId} {cell cell' : Cell} {name n : String} {s : ScopeId} {r : ReaderId},
    w.cell? c = some cell → w.cell? c' = some cell' → cell.Has name s r .reader →
    cell'.Has n s r .reader → c = c'
  /-- The client's readers are not inputs of cells. -/
  foreign : ∀ {handle : ReaderHandle} {c : CellId} {cell : Cell} {name : String},
    handle ∈ w.readers → w.cell? c = some cell →
    ¬cell.Has name handle.scope handle.reader .reader

namespace Posted

/-- What a cell has belongs to it alone. -/
theorem owner_eq (h : w.Posted agenda) {other : List Task} (happ : w.Apportioned other)
    (hcell : w.cell? c = some cell) (hcell' : w.cell? c' = some cell')
    (hx : cell.Has name s x role) (hx' : cell'.Has n s x role) : c = c' := by
  cases role with
  | reader => exact h.apart hcell hcell' hx hx'
  | definition =>
    have howns : w.Owns other (.output c name) s x := ⟨cell, hcell, hx⟩
    have howns' : w.Owns other (.output c' n) s x := ⟨cell', hcell', hx'⟩
    cases happ.unique howns howns'
    rfl

/-- It has one name. -/
theorem name_eq (h : w.Posted agenda) (hconsistent : w.tree.Consistent)
    (hcell : w.cell? c = some cell) (hx : cell.Has name s x role) (hx' : cell.Has n s x role) :
    name = n := by
  obtain ⟨-, y, hy, -⟩ := h.entry hcell hx
  obtain ⟨-, y', hy', -⟩ := h.entry hcell hx'
  exact (hy.unique hconsistent hy').1

/-- The cells have what they had, though it may stand elsewhere in the tree. Of the tasks that are
not idle none is new, except for one that hands over a definition, and the cells are going to have
the same outputs. -/
theorem proceed (h : w.Posted agenda) (hqueued : Queued agenda')
    (hsub : ∀ task ∈ agenda', task.rank ≠ .idle → task ∈ agenda ∨ task.rank = .keep)
    (hcells : ∀ {c : CellId} {cell' : Cell}, w'.cell? c = some cell' →
      ∃ cell, w.cell? c = some cell ∧ cell'.SamePost cell)
    (hwrites : ∀ {c : CellId} {cell : Cell} {name : String}, w.cell? c = some cell →
      w'.cell? c ≠ none → (Writes agenda' c cell name ↔ Writes agenda c cell name))
    (hentry : ∀ {c : CellId} {cell : Cell} {name : String} {s : ScopeId} {x : Nat} {y : Position}
      {role : Role}, w.cell? c = some cell → cell.Has name s x role → w'.tree.get? s ≠ none →
      w.tree.Enrolled s x name y role →
      (role = .definition → y = cell.position ∨ y.same cell.position = false) →
      (¬Awaits agenda c s x role → Aims agenda c cell name y role) →
      ∃ y', w'.tree.Enrolled s x name y' role ∧
        (role = .definition → y' = cell.position ∨ y'.same cell.position = false) ∧
        (¬Awaits agenda' c s x role → Aims agenda c cell name y' role))
    (hkeeping : ∀ {c : CellId} {cell' : Cell} {name : String} {s : ScopeId} {x : SlotId},
      .cell c (.keepOutput s name x) ∈ agenda' → w'.cell? c = some cell' →
      cell'.scope = some s ∧ cell'.outputs[name]? = none ∧
        w'.tree.Enrolled s x name cell'.position .definition)
    (hheld : ∀ {s : ScopeId}, s ∈ w'.heldScopes → w'.tree.get? s ≠ none)
    (hhoused : ∀ {c : CellId} {cell' : Cell} {s : ScopeId}, w'.cell? c = some cell' →
      cell'.scope = some s → w'.tree.get? s ≠ none)
    (hentering : ∀ {c : CellId} {s : ScopeId}, .cell c (.enter (some s)) ∈ agenda' →
      w'.tree.get? s ≠ none)
    (hreaders : ∀ handle ∈ w'.readers, handle ∈ w.readers) : w'.Posted agenda' := by
  have hold : ∀ task ∈ agenda', task.rank ≠ .idle → task.rank ≠ .keep → task ∈ agenda :=
    fun task hmem hidle hkeep => (hsub task hmem hidle).resolve_right hkeep
  have haims : ∀ {c : CellId} {cell cell' : Cell} {name : String} {y : Position} {role : Role},
      w'.cell? c = some cell' → w.cell? c = some cell → cell'.SamePost cell →
      Aims agenda c cell name y role → Aims agenda' c cell' name y role := by
    intro c cell cell' name y role hcell' hcell hsame haims
    refine haims.congr hsame.position ?_
    rw [← hwrites hcell (by rw [hcell']; rintro ⟨⟩), Writes, Writes, hsame.outputs]
  exact {
    queued := hqueued
    held := hheld
    housed := hhoused
    entering := by
      intro c scope hmem
      have hbefore := h.entering (hold _ hmem (by rintro ⟨⟩) (by rintro ⟨⟩))
      refine ⟨?_, fun hcell' hx => ?_⟩
      · rintro s rfl
        exact hentering hmem
      · obtain ⟨cell, hcell, hsame⟩ := hcells hcell'
        exact hbefore.2 hcell (hsame.has_iff.mp hx)
    entry := by
      intro c cell' name s x role hcell' hx
      obtain ⟨cell, hcell, hsame⟩ := hcells hcell'
      have hx' := hsame.has_iff.mp hx
      obtain ⟨hscope, y, hy, hplace, haim⟩ := h.entry hcell hx'
      have hscope' := hsame.scope.trans hscope
      obtain ⟨y', hy', hplace', haim'⟩ :=
        hentry hcell hx' (hhoused hcell' hscope') hy hplace haim
      exact ⟨hscope', y', hy', hsame.position ▸ hplace', fun hstill =>
        haims hcell' hcell hsame (haim' hstill)⟩
    moving := by
      intro c cell' name s x y role hmem hcell' hx
      obtain ⟨cell, hcell, hsame⟩ := hcells hcell'
      exact haims hcell' hcell hsame
        (h.moving (hold _ hmem (by simp) (by simp)) hcell (hsame.has_iff.mp hx))
    removing := by
      intro c cell' name s x role hmem hcell' hx
      obtain ⟨cell, hcell, hsame⟩ := hcells hcell'
      exact h.removing (hold _ hmem (by simp) (by simp)) hcell (hsame.has_iff.mp hx)
    adding := by
      intro c cell' name s y role hmem hcell'
      obtain ⟨cell, hcell, hsame⟩ := hcells hcell'
      have hadd := h.adding (hold _ hmem (by simp) (by simp)) hcell
      exact ⟨hsame.scope.trans hadd.1, haims hcell' hcell hsame hadd.2⟩
    keeping := hkeeping
    apart := by
      intro c c' cell' other name n s r hcell' hother hx hx'
      obtain ⟨cell, hcell, hsame⟩ := hcells hcell'
      obtain ⟨before, hbefore, hsame'⟩ := hcells hother
      exact h.apart hcell hbefore (hsame.has_iff.mp hx) (hsame'.has_iff.mp hx')
    foreign := by
      intro handle c cell' name hhandle hcell' hx
      obtain ⟨cell, hcell, hsame⟩ := hcells hcell'
      exact h.foreign (hreaders handle hhandle) hcell (hsame.has_iff.mp hx) }

/-- The tree has all that belongs to the cells, where it was. -/
theorem carry (h : w.Posted agenda) (hqueued : Queued agenda')
    (hsub : ∀ task ∈ agenda', task.rank ≠ .idle → task ∈ agenda)
    (hcells : ∀ {c : CellId} {cell' : Cell}, w'.cell? c = some cell' →
      ∃ cell, w.cell? c = some cell ∧ cell'.SamePost cell)
    (hwrites : ∀ {c : CellId} {cell : Cell} {name : String}, w.cell? c = some cell →
      w'.cell? c ≠ none → Writes agenda c cell name → Writes agenda' c cell name)
    (hawaits : ∀ {c : CellId} {cell : Cell} {name : String} {s : ScopeId} {x : Nat} {role : Role},
      w.cell? c = some cell → cell.Has name s x role → Awaits agenda c s x role →
      Awaits agenda' c s x role)
    (henrolled : ∀ {s : ScopeId} {x : Nat} {name : String} {y : Position} {role : Role},
      w'.tree.get? s ≠ none → w.tree.Enrolled s x name y role → w'.tree.Enrolled s x name y role)
    (hheld : ∀ {s : ScopeId}, s ∈ w'.heldScopes → w'.tree.get? s ≠ none)
    (hhoused : ∀ {c : CellId} {cell' : Cell} {s : ScopeId}, w'.cell? c = some cell' →
      cell'.scope = some s → w'.tree.get? s ≠ none)
    (hentering : ∀ {c : CellId} {s : ScopeId}, .cell c (.enter (some s)) ∈ agenda' →
      w'.tree.get? s ≠ none)
    (hreaders : ∀ handle ∈ w'.readers, handle ∈ w.readers) : w'.Posted agenda' := by
  refine h.proceed hqueued (fun task hmem hrank => .inl (hsub task hmem hrank)) hcells
    (fun hcell hcell' => ⟨writes_of_subset hsub, hwrites hcell hcell'⟩)
    (fun hcell hx hs hy hplace haim => ⟨_, henrolled hs hy, hplace, fun hstill =>
      haim fun hwait => hstill (hawaits hcell hx hwait)⟩)
    (fun hmem hcell' => ?_) hheld hhoused hentering hreaders
  obtain ⟨cell, hcell, hsame⟩ := hcells hcell'
  obtain ⟨hscope, hnone, hx⟩ := h.keeping (hsub _ hmem (by rintro ⟨⟩)) hcell
  have hscope' := hsame.scope.trans hscope
  rw [hsame.outputs, hsame.position]
  exact ⟨hscope', hnone, henrolled (hhoused hcell' hscope') hx⟩

/-- The rest of the workspace does not matter. -/
theorem of_same (h : w.Posted agenda) (htree : w'.tree = w.tree) (hcells : w'.cells = w.cells)
    (hheld : w'.heldScopes = w.heldScopes) (hreaders : w'.readers = w.readers) :
    w'.Posted agenda := by
  have hcell : ∀ c, w'.cell? c = w.cell? c := fun c => by rw [cell?, hcells, cell?]
  refine h.carry h.queued (fun _ hmem _ => hmem)
    (fun {c cell'} hcell' => ⟨cell', hcell c ▸ hcell', .refl _⟩) (fun _ _ => id) (fun _ _ => id)
    (fun _ hx => htree ▸ hx) (fun {s} hs => ?_) (fun {c cell' s} hcell' hscope => ?_)
    (fun {c s} hmem => ?_) (by simp [hreaders])
  · rw [htree]
    exact h.held (hheld ▸ hs)
  · rw [htree]
    exact h.housed (hcell c ▸ hcell') hscope
  · rw [htree]
    exact (h.entering hmem).1 s rfl

/-- A task that is not going to add an output is left out. -/
theorem drop (h : w.Posted (task :: agenda))
    (hwrites : ∀ {c : CellId} {cell : Cell} {name : String}, w.cell? c = some cell →
      task.output? = some (c, name) → Writes agenda c cell name)
    (hawaits : ∀ {c : CellId} {cell : Cell} {name : String} {s : ScopeId} {x : Nat} {role : Role},
      w.cell? c = some cell → cell.Has name s x role → task ≠ .cell c .synchronize ∧
        ∀ y, task ≠ role.moving s x y) : w.Posted agenda := by
  refine h.carry (queued_cons.mp h.queued).2 (fun _ hmem _ => List.mem_cons_of_mem _ hmem)
    (fun hcell => ⟨_, hcell, .refl _⟩) ?_ ?_ (fun _ hx => hx) h.held h.housed
    (fun hmem => (h.entering (List.mem_cons_of_mem _ hmem)).1 _ rfl) fun _ => id
  · rintro c cell name hcell - (hsome | ⟨other, hmem, houtput⟩)
    · exact .inl hsome
    · rcases List.mem_cons.mp hmem with rfl | hmem
      · exact hwrites hcell houtput
      · exact .inr ⟨other, hmem, houtput⟩
  · rintro c cell name s x role hcell hx (hmem | ⟨y, hmem⟩)
    · exact .inl ((List.mem_cons.mp hmem).resolve_left fun heq => (hawaits hcell hx).1 heq.symm)
    · exact .inr ⟨y, (List.mem_cons.mp hmem).resolve_left fun heq => (hawaits hcell hx).2 y heq.symm⟩

/-- An idle task leaves everybody where they are. -/
theorem idle (h : w.Posted (task :: w.agenda)) (hidle : task.rank = .idle) (hrests : w.Rests w')
    (hcells : ∀ {c : CellId} {cell' : Cell}, w'.cell? c = some cell' →
      ∃ cell, w.cell? c = some cell ∧ cell'.SamePost cell)
    (hpresent : ∀ {s : ScopeId}, w.tree.get? s ≠ none → w'.tree.get? s ≠ none)
    (hheld : ∀ {s : ScopeId}, s ∈ w'.heldScopes → w'.tree.get? s ≠ none) :
    w'.Posted w'.agenda := by
  obtain ⟨tasks, hagenda, htasks⟩ := hrests.agenda
  have hrest : Queued w.agenda := (queued_cons.mp h.queued).2
  have hforth : ∀ other ∈ task :: w.agenda, other.rank ≠ .idle → other ∈ w'.agenda := by
    intro other hmem hrank
    rw [hagenda]
    rcases List.mem_cons.mp hmem with rfl | hmem
    · exact absurd hidle hrank
    · exact List.mem_append_right _ hmem
  have hback : ∀ other ∈ w'.agenda, other.rank ≠ .idle → other ∈ task :: w.agenda := by
    intro other hmem hrank
    rw [hagenda] at hmem
    exact List.mem_cons_of_mem _ ((List.mem_append.mp hmem).resolve_left (htasks.not_mem hrank))
  refine h.carry (hagenda ▸ htasks.queued_append hrest) hback hcells ?_ ?_
    (fun _ hx => hrests.rolls.enrolled.mpr hx) hheld (fun hcell' hscope => ?_)
    (fun hmem => hpresent ((h.entering (hback _ hmem (by rintro ⟨⟩))).1 _ rfl)) (by simp [hrests.readers])
  · rintro c cell name - - (hsome | ⟨other, hmem, houtput⟩)
    · exact .inl hsome
    · exact .inr ⟨other, hforth _ hmem (Task.rank_ne_idle_of_output? houtput), houtput⟩
  · rintro c cell name s x role - - (hmem | ⟨y, hmem⟩)
    · exact .inl (hforth _ hmem (by rintro ⟨⟩))
    · exact .inr ⟨y, hforth _ hmem (by simp)⟩
  · obtain ⟨cell, hcell, hsame⟩ := hcells hcell'
    exact hpresent (h.housed hcell (hsame.scope.symm.trans hscope))

/-! ### Definitions and readers that move or go -/

/-- A definition or reader moves or goes, and those who have to be told are put on the agenda. -/
theorem spread (h : w.Posted (task :: w.agenda)) (hrank : task.rank = .shift) {tree : ScopeTree}
    (hshape : w.tree.SameShape tree) (readers : List ReaderId)
    (hentry : ∀ {c : CellId} {cell : Cell} {name : String} {q : ScopeId} {u : Nat} {z : Position}
      {role : Role}, w.cell? c = some cell → cell.Has name q u role →
      w.tree.Enrolled q u name z role →
      (role = .definition → z = cell.position ∨ z.same cell.position = false) →
      (¬Awaits (task :: w.agenda) c q u role → Aims (task :: w.agenda) c cell name z role) →
      ∃ z', tree.Enrolled q u name z' role ∧
        (role = .definition → z' = cell.position ∨ z'.same cell.position = false) ∧
        (¬Awaits w.agenda c q u role → Aims (task :: w.agenda) c cell name z' role)) :
    (w.spread s (readers, tree)).Posted (w.spread s (readers, tree)).agenda := by
  have hpresent : ∀ {q}, w.tree.get? q ≠ none → tree.get? q ≠ none := fun {q} hq =>
    get?_ne_none_of_shape? (hshape.shape?_eq q) hq
  obtain ⟨hbefore, hrest⟩ := queued_cons.mp h.queued
  have hnotices : AllIdle (noticeTasks s readers) := by simp [noticeTasks, Task.rank]
  have hsub : ∀ other ∈ noticeTasks s readers ++ w.agenda, other.rank ≠ .idle →
      other ∈ w.agenda := fun other hmem hother =>
    (List.mem_append.mp hmem).resolve_left (hnotices.not_mem hother)
  refine h.proceed (hnotices.queued_append hrest)
    (fun other hmem hother => .inl (List.mem_cons_of_mem _ (hsub other hmem hother)))
    (fun hcell => ⟨_, hcell, .refl _⟩) (fun _ _ => ⟨writes_of_subset fun other hmem hother =>
      List.mem_cons_of_mem _ (hsub other hmem hother), ?_⟩)
    (fun hcell hx _ hy hplace haim => ?_) (fun hmem => ?_) (fun hs => hpresent (h.held hs))
    (fun hcell hscope => hpresent (h.housed hcell hscope)) (fun hmem => ?_) fun _ => id
  · rintro (hsome | ⟨other, hmem, houtput⟩)
    · exact .inl hsome
    · rcases List.mem_cons.mp hmem with rfl | hmem
      · rcases Task.rank_of_output? houtput with hother | hother <;> simp [hrank] at hother
      · exact .inr ⟨other, List.mem_append_right _ hmem, houtput⟩
  · obtain ⟨z', hz', hplace', haim'⟩ := hentry hcell hx hy hplace haim
    refine ⟨z', hz', hplace', fun hstill => haim' fun hwait => hstill ?_⟩
    exact hwait.imp (List.mem_append_right _) (Exists.imp fun _ => List.mem_append_right _)
  · have hkeep := hbefore _ (hsub _ hmem (by rintro ⟨⟩))
    rw [hrank] at hkeep
    cases hkeep
  · exact hpresent ((h.entering (List.mem_cons_of_mem _ (hsub _ hmem (by rintro ⟨⟩)))).1 _ rfl)

/-- What is moved stands where it is to be. -/
theorem moved {j : Role} (h : w.Posted (j.moving s x y :: w.agenda)) {tree : ScopeTree}
    (hshifts : w.tree.Shifts tree s x y j) (hshape : w.tree.SameShape tree)
    (readers : List ReaderId) :
    (w.spread s (readers, tree)).Posted (w.spread s (readers, tree)).agenda := by
  refine h.spread (Role.rank_moving ..) hshape readers
    fun {c cell name q u z k} hcell hx hz hplace haim => ?_
  by_cases hself : k = j ∧ q = s ∧ u = x
  · obtain ⟨rfl, rfl, rfl⟩ := hself
    obtain ⟨z', hz', hnew⟩ := hshifts.forth hz
    have haimed := h.moving List.mem_cons_self hcell hx
    have heq : z' = y := by
      refine hnew.elim id ?_
      rintro ⟨rfl, rfl, hsame⟩
      have hy : y = cell.position := haimed
      rw [hy] at hsame ⊢
      exact (hplace rfl).resolve_right (by rw [hsame]; rintro ⟨⟩)
    rw [heq] at hz'
    exact ⟨y, hz', fun hk => .inl (by subst hk; exact haimed), fun _ => haimed⟩
  · refine ⟨z, (hshifts.others hself).mpr hz, hplace, fun hstill => haim ?_⟩
    rintro (hmem | ⟨z', hmem⟩)
    · rcases List.mem_cons.mp hmem with heq | hmem
      · cases j <;> cases heq
      · exact hstill (.inl hmem)
    · rcases List.mem_cons.mp hmem with heq | hmem
      · obtain ⟨rfl, rfl, rfl, -⟩ := Role.moving_inj.mp heq
        exact hself ⟨rfl, rfl, rfl⟩
      · exact hstill (.inr ⟨z', hmem⟩)

/-- What is removed belongs to no cell. -/
theorem removed {j : Role} (h : w.Posted (j.removing s x :: w.agenda)) {tree : ScopeTree}
    (hquits : w.tree.Quits tree s x j) (hshape : w.tree.SameShape tree)
    (readers : List ReaderId) :
    (w.spread s (readers, tree)).Posted (w.spread s (readers, tree)).agenda := by
  refine h.spread (Role.rank_removing ..) hshape readers
    fun {c cell name q u z k} hcell hx hz hplace haim => ?_
  have hother : ¬(k = j ∧ q = s ∧ u = x) := by
    rintro ⟨rfl, rfl, rfl⟩
    exact h.removing List.mem_cons_self hcell hx
  refine ⟨z, hquits.enrolled.mpr ⟨hz, hother⟩, hplace, fun hstill => haim ?_⟩
  rintro (hmem | ⟨z', hmem⟩)
  · rcases List.mem_cons.mp hmem with heq | hmem
    · cases j <;> cases heq
    · exact hstill (.inl hmem)
  · exact hstill (.inr ⟨z', (List.mem_cons.mp hmem).resolve_left Role.moving_ne_removing⟩)

/-! ### Cells that enter a scope or are brought in step -/

/-- A cell takes another form, and the others stay. -/
theorem eq_or_of_cell? {new : Cell} (h : (w.putCell c new).cell? c' = some cell') :
    c' = c ∧ cell' = new ∨ c' ≠ c ∧ w.cell? c' = some cell' := by
  rw [cell?, Workspace.putCell, lookup_insert] at h
  split at h
  · rename_i hc
    exact .inl ⟨hc.symm, (Option.some.inj h).symm⟩
  · rename_i hc
    exact .inr ⟨fun heq => hc heq.symm, h⟩

/-- A cell has nothing, is going to have nothing or to enter a scope, and is all that is busy. -/
theorem emptied (h : w.Posted agenda)
    (hquiet : ∀ other ∈ agenda, other.rank ≠ .idle → ∃ scope, other = .cell c (.enter scope))
    {new : Cell} (hempty : ∀ {name s x role}, ¬new.Has name s x role)
    (hscope : ∀ s, new.scope = some s → w.tree.get? s ≠ none) (hqueued : Queued agenda')
    (htasks : ∀ other ∈ agenda', other.rank ≠ .idle → other = .cell c .synchronize ∨
      (∃ scope, other = .cell c (.enter scope) ∧ ∀ s, scope = some s → w.tree.get? s ≠ none) ∨
      ∃ role s x, other = Role.removing s x role ∧ ∀ {c' cell' name}, c' ≠ c →
        w.cell? c' = some cell' → ¬cell'.Has name s x role) :
    (w.putCell c new).Posted agenda' := by
  have hturn : ∀ other ∈ agenda', other.rank ≠ .add ∧ other.rank ≠ .keep := by
    intro other hmem
    by_cases hidle : other.rank = .idle
    · simp [hidle]
    · rcases htasks other hmem hidle with rfl | ⟨scope, rfl, -⟩ | ⟨role, s, x, rfl, -⟩ <;>
        first | exact ⟨Rank.noConfusion, Rank.noConfusion⟩ | simp
  have hwrites : ∀ {c' : CellId} {cell' : Cell} {name : String},
      Writes agenda' c' cell' name ↔ Writes agenda c' cell' name := by
    refine fun {c' cell' name} => or_congr_right ⟨?_, ?_⟩
    · rintro ⟨other, hmem, houtput⟩
      exact ((Task.rank_of_output? houtput).elim (hturn other hmem).1 (hturn other hmem).2).elim
    · rintro ⟨other, hmem, houtput⟩
      obtain ⟨scope, rfl⟩ := hquiet other hmem (Task.rank_ne_idle_of_output? houtput)
      cases houtput
  have hstill : ∀ {c' s x} {role : Role}, ¬Awaits agenda c' s x role := by
    rintro c' s x role (hmem | ⟨y, hmem⟩)
    · obtain ⟨scope, heq⟩ := hquiet _ hmem (by rintro ⟨⟩)
      cases heq
    · obtain ⟨scope, heq⟩ := hquiet _ hmem (by simp)
      cases role <;> cases heq
  -- only what the other cells have matters
  have hothers : ∀ {c' cell' name s x} {role : Role}, (w.putCell c new).cell? c' = some cell' →
      cell'.Has name s x role → c' ≠ c ∧ w.cell? c' = some cell' := fun hcell' hx =>
    (eq_or_of_cell? hcell').resolve_left fun heq => hempty (heq.2 ▸ hx)
  exact {
    queued := hqueued
    held := h.held
    housed := fun hcell' hs => by
      rcases eq_or_of_cell? hcell' with ⟨-, rfl⟩ | ⟨-, hcell⟩
      · exact hscope _ hs
      · exact h.housed hcell hs
    entering := fun hmem => by
      rcases htasks _ hmem (by rintro ⟨⟩) with heq | ⟨scope, heq, hpresent⟩ | ⟨role, s, x, heq, -⟩
      · cases heq
      · cases heq
        refine ⟨hpresent, fun hcell' hx => ?_⟩
        exact (hothers hcell' hx).1 rfl
      · cases role <;> cases heq
    entry := fun hcell' hx => by
      obtain ⟨hscope', y, hy, hplace, haim⟩ := h.entry (hothers hcell' hx).2 hx
      exact ⟨hscope', y, hy, hplace, fun _ => (haim hstill).congr rfl hwrites⟩
    moving := fun {_ _ _ _ _ _ role} hmem _ _ => by
      rcases htasks _ hmem (by simp) with heq | ⟨scope, heq, -⟩ | ⟨k, s, x, heq, -⟩
      · cases role <;> cases heq
      · cases role <;> cases heq
      · exact absurd heq Role.moving_ne_removing
    removing := fun {_ _ _ _ _ role} hmem hcell' hx => by
      obtain ⟨hne, hcell⟩ := hothers hcell' hx
      rcases htasks _ hmem (by simp) with heq | ⟨scope, heq, -⟩ | ⟨k, s, x, heq, hfree⟩
      · cases role <;> cases heq
      · cases role <;> cases heq
      · obtain ⟨rfl, rfl, rfl⟩ := Role.removing_inj.mp heq
        exact hfree hne hcell hx
    adding := fun hmem => absurd (Role.rank_adding ..) (hturn _ hmem).1
    keeping := fun hmem => absurd rfl (hturn _ hmem).2
    apart := fun hcell' hother hx hx' => h.apart (hothers hcell' hx).2 (hothers hother hx').2 hx hx'
    foreign := fun hhandle hcell' hx => h.foreign hhandle (hothers hcell' hx).2 hx }

/-- A cell enters a scope. -/
theorem enter {scope : Option ScopeId} (h : w.Posted (.cell c (.enter scope) :: w.agenda))
    (hcell : w.cell? c = some cell) (always : Bool) :
    (w.batch c { cell with scope } always).Posted (w.batch c { cell with scope } always).agenda := by
  obtain ⟨hpresent, hempty⟩ := h.entering List.mem_cons_self
  have hrest : AllIdle w.agenda := h.queued.allIdle_of_turn rfl
  refine of_same (w := w.putCell c { cell with scope, suspended := true })
    (h.emptied (c := c) (fun other hmem hidle => ?_) (fun {name s x role} hx => ?_) hpresent ?_
      fun other hmem hidle => .inl ?_) rfl rfl rfl rfl
  · refine ⟨scope, (List.mem_cons.mp hmem).resolve_right fun hmem => hidle (hrest other hmem)⟩
  · exact hempty hcell ((Cell.has_congr rfl rfl).mp hx)
  · have hbatch : AllIdle (.cell c (.endBatch cell.suspended always) :: w.agenda) :=
      ranked_cons.mpr ⟨rfl, hrest⟩
    refine queued_cons.mpr ⟨fun later hl => ?_, hbatch.queued⟩
    rw [hbatch later hl, Rank.before_idle]
  · rcases List.mem_cons.mp hmem with rfl | hmem
    · rfl
    · rcases List.mem_cons.mp hmem with rfl | hmem
      · exact absurd rfl hidle
      · exact absurd (hrest other hmem) hidle

/-- When nothing else is to be done, a cell gets another expression or position, and is going to be
brought in step. -/
theorem turn (h : w.Posted []) (hcell : w.cell? c = some cell) (new : Cell)
    (hscope : new.scope = cell.scope) (hinputs : new.inputs = cell.inputs)
    (houtputs : new.outputs = cell.outputs)
    (hplace : new.position = cell.position ∨ cell.position.same new.position = false)
    (hqueued : Queued agenda') (hmem : .cell c .synchronize ∈ agenda')
    (htasks : ∀ other ∈ agenda', other.rank ≠ .idle → other = .cell c .synchronize) :
    (w.putCell c new).Posted agenda' := by
  have hhas : ∀ {name s x role}, new.Has name s x role ↔ cell.Has name s x role :=
    Cell.has_congr hinputs houtputs
  have hwrites : ∀ {c' : CellId} {cell' : Cell} {name : String},
      Writes agenda' c' cell' name ↔ Writes [] c' cell' name := by
    refine fun {c' cell' name} => or_congr_right ⟨?_, by simp⟩
    rintro ⟨other, hother, houtput⟩
    rw [htasks other hother (Task.rank_ne_idle_of_output? houtput)] at houtput
    cases houtput
  have hothers : ∀ {c' cell' name s x} {role : Role}, (w.putCell c new).cell? c' = some cell' →
      cell'.Has name s x role → ∃ before, w.cell? c' = some before ∧ before.Has name s x role := by
    intro c' cell' name s x role hcell' hx
    rcases eq_or_of_cell? hcell' with ⟨rfl, rfl⟩ | ⟨-, hcell'⟩
    · exact ⟨cell, hcell, hhas.mp hx⟩
    · exact ⟨cell', hcell', hx⟩
  have hnone : ∀ {other : Task}, other ∈ agenda' → other.rank ≠ .idle →
      other ≠ .cell c .synchronize → False := fun hother hidle hne =>
    hne (htasks _ hother hidle)
  exact {
    queued := hqueued
    held := h.held
    housed := fun hcell' hs => by
      rcases eq_or_of_cell? hcell' with ⟨-, rfl⟩ | ⟨-, hcell'⟩
      · exact h.housed hcell (hscope ▸ hs)
      · exact h.housed hcell' hs
    entering := fun hother => (hnone hother (by rintro ⟨⟩) (by rintro ⟨⟩)).elim
    entry := fun {c' cell' name s x role} hcell' hx => by
      rcases eq_or_of_cell? hcell' with ⟨rfl, rfl⟩ | ⟨-, hcell'⟩
      · obtain ⟨hs, y, hy, -, haim⟩ := h.entry hcell (hhas.mp hx)
        refine ⟨hscope.trans hs, y, hy, fun hrole => ?_, fun hstill => absurd (.inl hmem) hstill⟩
        subst hrole
        have heq : y = cell.position := haim (by simp [Awaits])
        rw [heq]
        exact hplace.imp_left Eq.symm
      · obtain ⟨hs, y, hy, hplace', haim⟩ := h.entry hcell' hx
        exact ⟨hs, y, hy, hplace', fun _ => (haim (by simp [Awaits])).congr rfl hwrites⟩
    moving := fun {_ _ _ _ _ _ role} hother => (hnone hother (by simp) (by cases role <;> rintro ⟨⟩)).elim
    removing := fun {_ _ _ _ _ role} hother => (hnone hother (by simp) (by cases role <;> rintro ⟨⟩)).elim
    adding := fun {_ _ _ _ _ role} hother => (hnone hother (by simp) (by cases role <;> rintro ⟨⟩)).elim
    keeping := fun hother => (hnone hother (by rintro ⟨⟩) (by rintro ⟨⟩)).elim
    apart := fun hcell' hother hx hx' => by
      obtain ⟨before, hbefore, hx⟩ := hothers hcell' hx
      obtain ⟨before', hbefore', hx'⟩ := hothers hother hx'
      exact h.apart hbefore hbefore' hx hx'
    foreign := fun hhandle hcell' hx => by
      obtain ⟨before, hbefore, hx⟩ := hothers hcell' hx
      exact h.foreign hhandle hbefore hx }

/-- When nothing else is to be done, a cell leaves its scope for another one. -/
theorem setScope {scope : Option ScopeId} (h : w.Posted []) (hquiet : w.agenda = [])
    (hcell : w.cell? c = some cell)
    (howner : ∀ {c' cell' n n' q u k}, w.cell? c' = some cell' → cell'.Has n q u k →
      cell.Has n' q u k → c' = c)
    (hpresent : ∀ s, scope = some s → w.tree.get? s ≠ none) :
    (w.setScope c cell scope).Posted (w.setScope c cell scope).agenda := by
  by_cases hsame : cell.scope = scope
  · rw [Workspace.setScope, if_pos hsame, hquiet]
    exact h
  obtain ⟨tasks, heq, hqueued, htasks⟩ := w.setScope_spec c cell hsame
  rw [heq]
  have hagenda : ((w.putCell c cell.unregistered).push tasks).agenda = tasks := by
    rw [push, putCell, hquiet, List.append_nil]
  rw [hagenda]
  refine of_same (w := w.putCell c cell.unregistered)
    (h.emptied (c := c) (by simp) Cell.not_has_unregistered (fun s hs => h.housed hcell hs) hqueued
      fun task hmem hidle => .inr ?_) rfl rfl rfl rfl
  cases (htasks task hidle).mp hmem with
  | enter => exact .inl ⟨scope, rfl, hpresent⟩
  | @remove role name q x has =>
    exact .inr ⟨role, q, x, rfl, fun hne hcell' hx => hne (howner hcell' hx has)⟩

/-- A cell is brought in step with its expression. -/
theorem synchronize (h : w.Posted (.cell c .synchronize :: w.agenda)) {other : List Task}
    (happ : w.Apportioned other) (hconsistent : w.tree.Consistent)
    (hcell : w.cell? c = some cell) (hscope : cell.scope = some s) :
    (w.synchronize c cell s).Posted (w.synchronize c cell s).agenda := by
  obtain ⟨tasks, heq, hqueued, -, htasks⟩ := w.synchronize_spec c cell s
  have hrest : AllIdle w.agenda := h.queued.allIdle_of_turn rfl
  have hsteps : ∀ {task : Task}, task ∈ tasks ++ w.agenda → task.rank ≠ .idle →
      Steps c cell s task := fun hmem hidle =>
    (htasks _ hidle).mp ((List.mem_append.mp hmem).resolve_right (hrest.not_mem hidle))
  have hmem : ∀ {task : Task}, task.rank ≠ .idle → Steps c cell s task →
      task ∈ tasks ++ w.agenda := fun hidle hstep =>
    List.mem_append_left _ ((htasks _ hidle).mpr hstep)
  have hwrites : ∀ name, Writes (tasks ++ w.agenda) c cell.inStep name ↔
      name ∈ cell.wants .definition := by
    refine fun name => ⟨?_, fun hname =>
      .inr ⟨_, hmem (by simp) (.add (k := .definition) hname), rfl⟩⟩
    rintro (hsome | ⟨task, htask, houtput⟩)
    · obtain ⟨⟨q, x⟩, ho⟩ := Option.ne_none_iff_exists'.mp hsome
      exact ((Cell.has_inStep_iff (k := .definition)).mp ho).2
    · exact ((hsteps htask (Task.rank_ne_idle_of_output? houtput)).of_output? houtput).2
  have haims : ∀ name role,
      Aims (tasks ++ w.agenda) c cell.inStep name (cell.place name role) role := by
    intro name role
    cases role with
    | definition => exact rfl
    | reader =>
      rw [Aims, hwrites, Cell.wants, ← List.contains_iff_mem]
      exact ⟨fun hname => if_pos hname, fun hname => if_neg hname⟩
  -- nothing is going to be done about the other cells
  have hothers : ∀ {c' : CellId} {cell' : Cell} {name : String}, c' ≠ c →
      (Writes (tasks ++ w.agenda) c' cell' name ↔
        Writes (.cell c .synchronize :: w.agenda) c' cell' name) := by
    refine fun {c' cell' name} hne => or_congr_right ⟨?_, ?_⟩
    · rintro ⟨task, htask, houtput⟩
      exact absurd ((hsteps htask (Task.rank_ne_idle_of_output? houtput)).of_output? houtput).1 hne
    · rintro ⟨task, htask, houtput⟩
      rcases List.mem_cons.mp htask with rfl | htask
      · cases houtput
      · exact absurd (hrest task htask) (Task.rank_ne_idle_of_output? houtput)
  have hstill : ∀ {c' q x} {role : Role}, c' ≠ c →
      ¬Awaits (.cell c .synchronize :: w.agenda) c' q x role := by
    rintro c' q x role hne (htask | ⟨y, htask⟩)
    · rcases List.mem_cons.mp htask with heq | htask
      · cases heq
        exact hne rfl
      · exact absurd (hrest _ htask) (by rintro ⟨⟩)
    · rcases List.mem_cons.mp htask with heq | htask
      · cases role <;> cases heq
      · exact absurd (hrest _ htask) (by simp)
  have hhad : ∀ {c' cell' name q x} {role : Role},
      (w.putCell c cell.inStep).cell? c' = some cell' → cell'.Has name q x role →
      ∃ before, w.cell? c' = some before ∧ before.Has name q x role := by
    intro c' cell' name q x role hcell' hx
    rcases eq_or_of_cell? hcell' with ⟨rfl, rfl⟩ | ⟨-, hcell'⟩
    · exact ⟨cell, hcell, (Cell.has_inStep_iff.mp hx).1⟩
    · exact ⟨cell', hcell', hx⟩
  rw [heq]
  exact {
    queued := hrest.queued_append_right hqueued
    held := h.held
    housed := fun hcell' hs => by
      rcases eq_or_of_cell? hcell' with ⟨-, rfl⟩ | ⟨-, hcell'⟩
      · exact h.housed hcell hs
      · exact h.housed hcell' hs
    entering := fun htask => by
      have hrank := (hsteps htask (by rintro ⟨⟩)).rank
      simp [Task.rank] at hrank
    entry := fun {c' cell' name q x role} hcell' hx => by
      rcases eq_or_of_cell? hcell' with ⟨rfl, rfl⟩ | ⟨hne, hcell'⟩
      · obtain ⟨has, hname⟩ := Cell.has_inStep_iff.mp hx
        obtain ⟨hs, y, hy, hplace, -⟩ := h.entry hcell has
        exact ⟨hs, y, hy, hplace, fun hwait =>
          absurd (.inr ⟨_, hmem (by simp) (.move has hname)⟩) hwait⟩
      · obtain ⟨hs, y, hy, hplace, haim⟩ := h.entry hcell' hx
        exact ⟨hs, y, hy, hplace, fun _ => (haim (hstill hne)).congr rfl (hothers hne)⟩
    moving := fun {c' cell' name q x y role} htask hcell' hx => by
      obtain ⟨n, has, hname, rfl⟩ := (hsteps htask (by simp)).of_moving
      rcases eq_or_of_cell? hcell' with ⟨rfl, rfl⟩ | ⟨hne, hcell'⟩
      · rw [h.name_eq hconsistent hcell has (Cell.has_inStep_iff.mp hx).1]
        exact haims name role
      · exact absurd (h.owner_eq happ hcell' hcell hx has) hne
    removing := fun {c' cell' name q x role} htask hcell' hx => by
      obtain ⟨n, has, hname⟩ := (hsteps htask (by simp)).of_removing
      rcases eq_or_of_cell? hcell' with ⟨rfl, rfl⟩ | ⟨hne, hcell'⟩
      · obtain ⟨has', hname'⟩ := Cell.has_inStep_iff.mp hx
        exact hname (h.name_eq hconsistent hcell has has' ▸ hname')
      · exact absurd (h.owner_eq happ hcell' hcell hx has) hne
    adding := fun {c' cell' name q y role} htask hcell' => by
      obtain ⟨rfl, rfl, hname, rfl⟩ := (hsteps htask (by simp)).of_adding
      rcases eq_or_of_cell? hcell' with ⟨-, rfl⟩ | ⟨hne, -⟩
      · exact ⟨hscope, haims name role⟩
      · exact absurd rfl hne
    keeping := fun htask => by
      have hrank := (hsteps htask (by rintro ⟨⟩)).rank
      simp [Task.rank] at hrank
    apart := fun hcell' hother hx hx' => by
      obtain ⟨before, hbefore, hx⟩ := hhad hcell' hx
      obtain ⟨before', hbefore', hx'⟩ := hhad hother hx'
      exact h.apart hbefore hbefore' hx hx'
    foreign := fun hhandle hcell' hx => by
      obtain ⟨before, hbefore, hx⟩ := hhad hcell' hx
      exact h.foreign hhandle hbefore hx }

end Posted

end Workspace

end MathCanvas
