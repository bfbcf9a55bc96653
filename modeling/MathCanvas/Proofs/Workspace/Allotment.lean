import MathCanvas.Proofs.Workspace.Chronicle
import MathCanvas.Proofs.Workspace.Posting

/-!
# Whoever is enrolled belongs to somebody

A definition or a reader that was made for others than an importer belongs to a cell or to the client,
or a task is going to hand it over or to remove it (`Workspace.Belongs`). The client can let go of a
cell that is still in a scope: nothing is removed then, and what the cell had is left behind.
-/

namespace MathCanvas

variable {agenda agenda' rest : List Task} {c c' : CellId} {cell cell' : Cell} {name n : String}
  {s q : ScopeId} {x u : Nat} {y z : Position} {j k : Role} {task : Task}
  {left left' : Role → ScopeId → Nat → Prop}

namespace Workspace

variable {w w' : Workspace}

/-- To whom what is enrolled belongs. -/
inductive Belongs (w : Workspace) (agenda : List Task) (left : Role → ScopeId → Nat → Prop) :
    Role → ScopeId → Nat → Prop
  | cell {c : CellId} {cell : Cell} {n : String} {s : ScopeId} {x : Nat} {k : Role}
      (hcell : w.cell? c = some cell) (has : cell.Has n s x k) : Belongs w agenda left k s x
  | definition {n : String} {s : ScopeId} {x : SlotId} (handle_mem : ⟨s, x, n⟩ ∈ w.definitions) :
      Belongs w agenda left .definition s x
  | reader {n : String} {s : ScopeId} {x : ReaderId} (handle_mem : ⟨s, x, n⟩ ∈ w.readers) :
      Belongs w agenda left .reader s x
  /-- It is going to be handed over. -/
  | promised {task : Task} {s : ScopeId} {x : Nat} (task_mem : task ∈ agenda)
      (promises : task.promised? = some (s, x)) : Belongs w agenda left .definition s x
  | removing {s : ScopeId} {x : Nat} {k : Role} (task_mem : k.removing s x ∈ agenda) :
      Belongs w agenda left k s x
  /-- It is left behind. -/
  | left {s : ScopeId} {x : Nat} {k : Role} (is_left : left k s x) : Belongs w agenda left k s x

theorem rank_of_promised? (h : task.promised? = some (s, x)) : task.rank = .keep := by
  unfold Task.promised? at h
  split at h <;> first | rfl | cases h

/-- Whoever has something keeps it, and tasks that are about it stay, or somebody else has it. -/
theorem Belongs.mono (h : w.Belongs agenda left k s x)
    (hcells : ∀ {c cell n s x k}, w.cell? c = some cell → cell.Has n s x k →
      w'.Belongs agenda' left' k s x)
    (hdefinitions : ∀ handle ∈ w.definitions, handle ∈ w'.definitions)
    (hreaders : ∀ handle ∈ w.readers, handle ∈ w'.readers)
    (hpromised : ∀ {task s x}, task ∈ agenda → task.promised? = some (s, x) →
      w'.Belongs agenda' left' .definition s x)
    (hremoving : k.removing s x ∈ agenda → k.removing s x ∈ agenda')
    (hleft : ∀ {k s x}, left k s x → left' k s x) : w'.Belongs agenda' left' k s x := by
  cases h with
  | cell hcell has => exact hcells hcell has
  | definition handle_mem => exact .definition (hdefinitions _ handle_mem)
  | reader handle_mem => exact .reader (hreaders _ handle_mem)
  | promised task_mem promises => exact hpromised task_mem promises
  | removing task_mem => exact .removing (hremoving task_mem)
  | left is_left => exact .left (hleft is_left)

/-- Everybody enrolled belongs to somebody, and there is a cell for each definition that is going to be
handed over to one. -/
structure Allotted (w : Workspace) (agenda : List Task) (left : Role → ScopeId → Nat → Prop) :
    Prop where
  manned : ∀ {c : CellId} {s : ScopeId} {name : String} {x : SlotId},
    .cell c (.keepOutput s name x) ∈ agenda → w.cell? c ≠ none
  belongs : ∀ {s : ScopeId} {x : Nat} {name : String} {y : Position} {k : Role},
    w.tree.Enrolled s x name y k → w.Belongs agenda left k s x

namespace Allotted

/-- Whoever is new has an owner, and whoever has something keeps it. -/
theorem mono (h : w.Allotted agenda left)
    (hmanned : ∀ {c s name x}, .cell c (.keepOutput s name x) ∈ agenda' → w'.cell? c ≠ none)
    (henrolled : ∀ {s x n y k}, w'.tree.Enrolled s x n y k →
      (∃ n y, w.tree.Enrolled s x n y k) ∨ w'.Belongs agenda' left' k s x)
    (hcells : ∀ {c cell n s x k}, w.cell? c = some cell → cell.Has n s x k →
      w'.Belongs agenda' left' k s x)
    (hdefinitions : ∀ handle ∈ w.definitions, handle ∈ w'.definitions)
    (hreaders : ∀ handle ∈ w.readers, handle ∈ w'.readers)
    (hpromised : ∀ {task s x}, task ∈ agenda → task.promised? = some (s, x) →
      w'.Belongs agenda' left' .definition s x)
    (hremoving : ∀ {s x n y k}, w'.tree.Enrolled s x n y k → k.removing s x ∈ agenda →
      k.removing s x ∈ agenda')
    (hleft : ∀ {k s x}, left k s x → left' k s x) : w'.Allotted agenda' left' where
  manned := hmanned
  belongs hx := by
    rcases henrolled hx with ⟨n, y, hbefore⟩ | hnew
    swap
    · exact hnew
    exact (h.belongs hbefore).mono hcells hdefinitions hreaders hpromised (hremoving hx) hleft

/-- The rest of the workspace does not matter. -/
theorem of_same (h : w.Allotted agenda left) (htree : w'.tree = w.tree) (hcells : w'.cells = w.cells)
    (hdefinitions : w'.definitions = w.definitions) (hreaders : w'.readers = w.readers) :
    w'.Allotted agenda left := by
  have hcell : ∀ c, w'.cell? c = w.cell? c := fun c => by rw [cell?, hcells, cell?]
  refine h.mono (fun {c s name x} hkeep => hcell c ▸ h.manned hkeep)
    (fun hx => .inl ⟨_, _, htree ▸ hx⟩) (fun {c cell n s x k} hc has => ?_) (by simp [hdefinitions])
    (by simp [hreaders]) .promised (fun _ => id) id
  exact .cell ((hcell c).trans hc) has

/-- An idle task leaves everything to those who have it. -/
theorem idle (h : w.Allotted (task :: w.agenda) left) (hidle : task.rank = .idle)
    (hrests : w.Rests w')
    (hcells : ∀ {c cell}, w.cell? c = some cell → ∃ cell', w'.cell? c = some cell' ∧
      cell'.SamePost cell) : w'.Allotted w'.agenda left := by
  obtain ⟨tasks, hagenda, htasks⟩ := hrests.agenda
  have hmem : ∀ other, other.rank ≠ .idle → (other ∈ w'.agenda ↔ other ∈ task :: w.agenda) := by
    intro other hother
    rw [hagenda, List.mem_append, List.mem_cons]
    refine or_congr_left ⟨fun hmem => absurd hmem (htasks.not_mem hother), ?_⟩
    rintro rfl
    exact absurd hidle hother
  refine h.mono (fun hkeep => ?_) (fun hx => .inl ⟨_, _, hrests.rolls.enrolled.mp hx⟩) (fun hcell has => ?_)
    (by simp [hrests.definitions]) (by simp [hrests.readers]) (fun hother hpromises => ?_)
    (fun _ => (hmem _ (by simp)).mpr) id
  · have hcell := h.manned ((hmem _ (by simp [Task.rank])).mp hkeep)
    obtain ⟨cell, hcell⟩ := Option.ne_none_iff_exists'.mp hcell
    obtain ⟨cell', hcell', -⟩ := hcells hcell
    rw [hcell']
    rintro ⟨⟩
  · obtain ⟨cell', hcell', hsame⟩ := hcells hcell
    exact .cell hcell' (hsame.has_iff.mpr has)
  · refine .promised ((hmem _ ?_).mpr hother) hpromises
    rw [rank_of_promised? hpromises]
    rintro ⟨⟩

/-! ### Definitions and readers that move, go or come -/

/-- Something moves or goes, and nobody comes. -/
theorem spread (h : w.Allotted (task :: w.agenda) left) (hrank : task.rank = .shift)
    {tree : ScopeTree} (readers : List ReaderId)
    (henrolled : ∀ {q u n y k}, tree.Enrolled q u n y k →
      (∃ n y, w.tree.Enrolled q u n y k) ∧ k.removing q u ≠ task) :
    (w.spread s (readers, tree)).Allotted (w.spread s (readers, tree)).agenda left := by
  have hmem : ∀ {other : Task}, other ∈ task :: w.agenda → other ≠ task →
      other ∈ noticeTasks s readers ++ w.agenda := fun hother hne =>
    List.mem_append_right _ ((List.mem_cons.mp hother).resolve_left hne)
  refine h.mono (fun hkeep => ?_) (fun hx => .inl (henrolled hx).1) (fun hcell has => .cell hcell has)
    (fun _ => id) (fun _ => id) (fun hother hpromises => .promised (hmem hother ?_) hpromises)
    (fun hx hremoving => hmem hremoving (henrolled hx).2) id
  · refine h.manned (List.mem_cons_of_mem _ ((List.mem_append.mp hkeep).resolve_left ?_))
    simp [noticeTasks]
  · rintro rfl
    rw [rank_of_promised? hpromises] at hrank
    cases hrank

theorem moved (h : w.Allotted (j.moving s x y :: w.agenda) left) {tree : ScopeTree}
    (hshifts : w.tree.Shifts tree s x y j) (readers : List ReaderId) :
    (w.spread s (readers, tree)).Allotted (w.spread s (readers, tree)).agenda left := by
  refine h.spread (Role.rank_moving ..) readers fun {q u n z k} hx =>
    ⟨?_, Ne.symm Role.moving_ne_removing⟩
  by_cases hself : k = j ∧ q = s ∧ u = x
  · obtain ⟨rfl, rfl, rfl⟩ := hself
    obtain ⟨old, hold⟩ := hshifts.back hx
    exact ⟨_, _, hold⟩
  · exact ⟨_, _, (hshifts.others hself).mp hx⟩

theorem removed (h : w.Allotted (j.removing s x :: w.agenda) left) {tree : ScopeTree}
    (hquits : w.tree.Quits tree s x j) (readers : List ReaderId) :
    (w.spread s (readers, tree)).Allotted (w.spread s (readers, tree)).agenda left := by
  refine h.spread (Role.rank_removing ..) readers fun {q u n z k} hx => ?_
  obtain ⟨hbefore, hne⟩ := hquits.enrolled.mp hx
  exact ⟨⟨_, _, hbefore⟩, fun heq => hne (Role.removing_inj.mp heq)⟩

/-- A cell gets more, and everybody keeps what they have. -/
theorem grown {new : Cell} (hcell : w.cell? c = some cell)
    (hhas : ∀ {n s x k}, cell.Has n s x k → new.Has n s x k) (htree : w'.cells = (w.putCell c new).cells)
    (hcell' : w.cell? c' = some cell') (has : cell'.Has n s x k) : w'.Belongs agenda' left' k s x := by
  by_cases hc : c = c'
  · subst hc
    cases hcell.symm.trans hcell'
    refine .cell (c := c) ?_ (hhas has)
    rw [cell?, htree, ← cell?, cell?_putCell]
  · refine .cell (c := c') ?_ has
    rw [cell?, htree, Workspace.putCell, lookup_insert, if_neg hc]
    exact hcell'

/-- A cell takes another form. What it does not keep is going to be removed. -/
theorem replaced (h : w.Allotted agenda left)
    (hcell : ∀ {before}, w.cell? c = some before → ∀ {n s x k}, before.Has n s x k →
      cell'.Has n s x k ∨ k.removing s x ∈ agenda')
    (hkeeps : ∀ {c s name x}, .cell c (.keepOutput s name x) ∈ agenda' →
      .cell c (.keepOutput s name x) ∈ agenda)
    (hsub : ∀ other ∈ agenda, other.rank ≠ .idle → other.rank ≠ .turn → other ∈ agenda') :
    (w.putCell c cell').Allotted agenda' left := by
  refine h.mono (fun hkeep => cell?_putCell_ne_none (h.manned (hkeeps hkeep)))
    (fun hx => .inl ⟨_, _, hx⟩) (fun {c' before n s x k} hbefore has => ?_) (fun _ => id)
    (fun _ => id) (fun hmem hpromises => ?_) (fun _ hmem => hsub _ hmem (by simp) (by simp)) id
  · by_cases hc : c = c'
    · subst hc
      exact (hcell hbefore has).elim (.cell (cell?_putCell ..)) .removing
    · refine .cell (c := c') ?_ has
      rw [cell?, Workspace.putCell, lookup_insert, if_neg hc]
      exact hbefore
  · have hkeep := rank_of_promised? hpromises
    exact .promised (hsub _ hmem (by rw [hkeep]; rintro ⟨⟩) (by rw [hkeep]; rintro ⟨⟩)) hpromises

/-- A cell that is brought in step has what it wants, and the rest is going to be removed. -/
theorem synchronize (h : w.Allotted (.cell c .synchronize :: w.agenda) left)
    (hcell : w.cell? c = some cell) (s : ScopeId) :
    (w.synchronize c cell s).Allotted (w.synchronize c cell s).agenda left := by
  obtain ⟨tasks, heq, -, -, htasks⟩ := w.synchronize_spec c cell s
  rw [heq]
  refine of_same (w := w.putCell c cell.inStep) (h.replaced (fun {before} hbefore {n q x k} has => ?_)
    (fun {c' q n x} hkeep => List.mem_cons_of_mem _ ?_) fun other hmem _ hturn => ?_) rfl rfl rfl rfl
  · cases hbefore.symm.trans hcell
    by_cases hwanted : n ∈ cell.wants k
    · exact .inl (Cell.has_inStep_iff.mpr ⟨has, hwanted⟩)
    · exact .inr (List.mem_append_left _ ((htasks _ (by simp)).mpr (.remove has hwanted)))
  · refine (List.mem_append.mp hkeep).resolve_left fun hmem => ?_
    have hrank := ((htasks _ (by simp [Task.rank])).mp hmem).rank
    simp [Task.rank] at hrank
  · refine List.mem_append_right _ ((List.mem_cons.mp hmem).resolve_left ?_)
    rintro rfl
    exact hturn rfl

/-- A cell that leaves its scope has nothing, and all that it had is going to be removed. -/
theorem setScope {scope : Option ScopeId} (h : w.Allotted w.agenda left)
    (hcell : w.cell? c = some cell) :
    (w.setScope c cell scope).Allotted (w.setScope c cell scope).agenda left := by
  by_cases hsame : cell.scope = scope
  · rw [Workspace.setScope, if_pos hsame]
    exact h
  obtain ⟨tasks, heq, -, htasks⟩ := w.setScope_spec c cell hsame
  rw [heq]
  refine of_same (w := w.putCell c cell.unregistered) (h.replaced (fun {before} hbefore {n q x k} has => .inr ?_)
    (fun {c' q n x} hkeep => ?_) fun _ hmem _ _ => List.mem_append_right _ hmem) rfl rfl rfl rfl
  · cases hbefore.symm.trans hcell
    exact List.mem_append_left _ ((htasks _ (by simp)).mpr (.remove has))
  · refine (List.mem_append.mp hkeep).resolve_left fun hmem => ?_
    generalize htask : Task.cell c' (.keepOutput q n x) = task at hmem
    cases (htasks _ (by simp [← htask, Task.rank])).mp hmem with
    | @remove k => cases k <;> cases htask
    | enter => cases htask

theorem batch (h : w.Allotted w.agenda left) (hcell : w.cell? c = some cell) (new : Cell)
    (hinputs : new.inputs = cell.inputs) (houtputs : new.outputs = cell.outputs) (always : Bool) :
    (w.batch c new always).Allotted (w.batch c new always).agenda left := by
  refine of_same (w := w.putCell c { new with suspended := true })
    (h.replaced (fun {before} hbefore {n q x k} has => .inl ?_) (fun hkeep => ?_)
      fun _ hmem _ _ => List.mem_append_right _ hmem) rfl rfl rfl rfl
  · cases hbefore.symm.trans hcell
    exact (Cell.has_congr hinputs houtputs).mpr has
  · exact (List.mem_append.mp hkeep).resolve_left (by simp)

/-- One more is enrolled, and has an owner. -/
theorem admitted (h : w.Allotted (task :: agenda) left) (hrank : task.rank = .idle ∨ task.rank = .add)
    (hadmits : w.tree.Admits w'.tree s x name y k) (hnew : w'.Belongs agenda' left k s x)
    (hmanned : ∀ {c s name x}, .cell c (.keepOutput s name x) ∈ agenda' → w'.cell? c ≠ none)
    (hcells : ∀ {c cell n s x k}, w.cell? c = some cell → cell.Has n s x k →
      w'.Belongs agenda' left k s x)
    (hdefinitions : ∀ handle ∈ w.definitions, handle ∈ w'.definitions)
    (hreaders : ∀ handle ∈ w.readers, handle ∈ w'.readers) (hsub : ∀ other ∈ agenda, other ∈ agenda') :
    w'.Allotted agenda' left := by
  have hother : ∀ {other : Task}, other ∈ task :: agenda → other.rank ≠ .idle → other.rank ≠ .add →
      other ∈ agenda' := by
    intro other hmem hidle hadd
    rcases List.mem_cons.mp hmem with rfl | hmem
    · exact (hrank.elim hidle hadd).elim
    · exact hsub other hmem
  refine h.mono hmanned (fun hx => ?_) hcells hdefinitions hreaders (fun hmem hpromises => ?_)
    (fun _ hmem => hother hmem (by simp) (by simp)) id
  · rcases hadmits.enrolled.mp hx with hx | ⟨⟨rfl, rfl, rfl⟩, -⟩
    · exact .inl ⟨_, _, hx⟩
    · exact .inr hnew
  · have hkeep := rank_of_promised? hpromises
    exact .promised (hother hmem (by rw [hkeep]; rintro ⟨⟩) (by rw [hkeep]; rintro ⟨⟩)) hpromises

/-- A task that neither removes anything nor hands anything over is left out. -/
theorem drop (h : w.Allotted (task :: agenda) left) (hshift : task.rank ≠ .shift)
    (hkeep : task.rank ≠ .keep) : w.Allotted agenda left := by
  refine h.mono (fun hmem => h.manned (List.mem_cons_of_mem _ hmem)) (fun hx => .inl ⟨_, _, hx⟩) .cell
    (fun _ => id) (fun _ => id) (fun hmem hpromises => ?_) (fun _ hmem => ?_) id
  · refine .promised ((List.mem_cons.mp hmem).resolve_left ?_) hpromises
    rintro rfl
    exact hkeep (rank_of_promised? hpromises)
  · refine (List.mem_cons.mp hmem).resolve_left ?_
    rintro rfl
    simp at hshift

theorem addOutput (h : w.Allotted (.cell c (.addOutput s name y) :: w.agenda) left)
    (htied : w.tree.WellTied) (hcell : w.cell? c = some cell) :
    (w.performCell c cell (.addOutput s name y)).Allotted
      (w.performCell c cell (.addOutput s name y)).agenda left := by
  unfold performCell
  simp only
  split
  · exact h.drop (by rintro ⟨⟩) (by rintro ⟨⟩)
  split
  · exact h.drop (by rintro ⟨⟩) (by rintro ⟨⟩)
  rename_i slot readers tree hadd
  refine h.admitted (.inr rfl) (ScopeTree.admits_addDefinition htied hadd)
    (.promised (List.mem_append_left _ (List.mem_cons_of_mem _ List.mem_cons_self)) rfl)
    (fun hmem => ?_) (fun {c' _ _ _ _ _} hcell' has => .cell (c := c') hcell' has) (fun _ => id)
    (fun _ => id) fun _ hmem => List.mem_append_right _ hmem
  rcases List.mem_append.mp hmem with hmem | hmem
  · simp only [List.mem_cons, reduceCtorEq, List.not_mem_nil, or_false, false_or] at hmem
    cases hmem
    show w.cell? c ≠ none
    rw [hcell]
    rintro ⟨⟩
  · exact h.manned (List.mem_cons_of_mem _ hmem)

theorem addInput (h : w.Allotted (.cell c (.addInput s name y) :: w.agenda) left)
    (htied : w.tree.WellTied) (hcell : w.cell? c = some cell) :
    (w.performCell c cell (.addInput s name y)).Allotted
      (w.performCell c cell (.addInput s name y)).agenda left := by
  unfold performCell
  simp only
  split
  · exact h.drop (by rintro ⟨⟩) (by rintro ⟨⟩)
  rename_i hmissing
  rw [Std.TreeMap.contains_eq_isSome_getElem?, Bool.not_eq_true, Option.isSome_eq_false_iff,
    Option.isNone_iff_eq_none] at hmissing
  split
  · exact h.drop (by rintro ⟨⟩) (by rintro ⟨⟩)
  rename_i reader readers tree hadd
  have hadmits := (ScopeTree.admits_addReader htied hadd).rolls
    (ScopeTree.sameRolls_listenToReader s reader (.input c name))
  have hself := cell.reader?_insert name
  refine h.admitted (.inr rfl) hadmits (.cell (cell?_putCell ..) ((hself name _).trans (if_pos rfl)))
    (fun hmem => cell?_putCell_ne_none (h.manned (List.mem_cons_of_mem _ hmem)))
    (grown hcell (fun {n q u k} has => ?_) rfl) (fun _ => id) (fun _ => id) fun _ => id
  cases k with
  | definition => exact has
  | reader =>
    refine (hself n _).trans ((if_neg ?_).trans has)
    rintro rfl
    rw [Cell.Has, Cell.reader?, hmissing] at has
    cases has

theorem keepOutput (h : w.Allotted (.cell c (.keepOutput s name x) :: agenda) left)
    (hcell : w.cell? c = some cell) (hnone : cell.outputs[name]? = none) :
    (w.performCell c cell (.keepOutput s name x)).Allotted agenda left := by
  refine h.mono (fun hmem => cell?_putCell_ne_none (h.manned (List.mem_cons_of_mem _ hmem)))
    (fun hx => .inl ⟨_, _, hx⟩) (grown hcell (fun {n q u k} has => ?_) rfl) (fun _ => id)
    (fun _ => id) (fun hmem hpromises => ?_) (fun {_ _ _ _ k} _ hmem => ?_) id
  · cases k with
    | definition =>
      refine (lookup_insert_of_ne _ _ ?_).trans has
      rintro rfl
      rw [Cell.Has, hnone] at has
      cases has
    | reader => exact has
  · rcases List.mem_cons.mp hmem with rfl | hmem
    · cases hpromises
      exact .cell (cell?_putCell ..) (n := name) (k := .definition) (lookup_insert_self ..)
    · exact .promised hmem hpromises
  · exact (List.mem_cons.mp hmem).resolve_left (by cases k <;> rintro ⟨⟩)

theorem keepDefinition (h : w.Allotted (.keepDefinition s x name :: agenda) left) :
    (w.perform (.keepDefinition s x name)).Allotted agenda left := by
  refine h.mono (fun hmem => h.manned (List.mem_cons_of_mem _ hmem)) (fun hx => .inl ⟨_, _, hx⟩)
    (fun {c' _ _ _ _ _} hcell' has => .cell (c := c') hcell' has)
    (fun _ hmem => Array.mem_push_of_mem _ hmem) (fun _ => id) (fun hmem hpromises => ?_)
    (fun {_ _ _ _ k} _ hmem => ?_) id
  · rcases List.mem_cons.mp hmem with rfl | hmem
    · cases hpromises
      exact .definition Array.mem_push_self
    · exact .promised hmem hpromises
  · exact (List.mem_cons.mp hmem).resolve_left (by cases k <;> rintro ⟨⟩)

/-! ### Operations of the client -/

theorem push (h : w.Allotted w.agenda left) {tasks : List Task}
    (htasks : ∀ {c s name x}, .cell c (.keepOutput s name x) ∉ tasks) :
    (w.push tasks).Allotted (w.push tasks).agenda left :=
  h.mono (fun hmem => h.manned ((List.mem_append.mp hmem).resolve_left htasks))
    (fun hx => .inl ⟨_, _, hx⟩) (fun {c' _ _ _ _ _} hcell' has => .cell (c := c') hcell' has)
    (fun _ => id) (fun _ => id) (fun hmem => .promised (List.mem_append_right _ hmem))
    (fun _ => List.mem_append_right _) id

theorem onHeldCell {f : Cell → Workspace} (h : w.Allotted w.agenda left)
    (hf : ∀ cell, w.cell? c = some cell → (f cell).Allotted (f cell).agenda left) :
    (w.onHeldCell c f).Allotted (w.onHeldCell c f).agenda left := by
  unfold Workspace.onHeldCell onCell
  split
  · split
    · rename_i cell hcell
      exact hf cell hcell
    · exact h
  · exact h

theorem operate {op : Op} (h : w.Allotted (.operate op :: w.agenda) left)
    (htied : w.tree.WellTied) (hunborn : w.cell? w.nextCell = none) (henlists : op.enlists = true) :
    (w.operate op).2.Allotted (w.operate op).2.agenda left := by
  have hsame : w.Allotted w.agenda left := h.drop (by rintro ⟨⟩) (by rintro ⟨⟩)
  cases op with
  | addDefinition s name y =>
    unfold Workspace.operate
    simp only
    split
    · split
      · rename_i slot readers tree hadd
        refine h.admitted (.inl rfl) (ScopeTree.admits_addDefinition htied hadd)
          (.promised (List.mem_append_left _ (List.mem_cons_of_mem _ List.mem_cons_self)) rfl)
          (fun hmem => ?_) (fun {c' _ _ _ _ _} hcell' has => .cell (c := c') hcell' has) (fun _ => id)
          (fun _ => id) fun _ hmem => List.mem_append_right _ hmem
        exact hsame.manned ((List.mem_append.mp hmem).resolve_left (by simp))
      · exact hsame
    · exact hsame
  | addReader s name y =>
    unfold Workspace.operate
    simp only
    split
    · split
      · rename_i reader readers tree hadd
        exact h.admitted (.inl rfl) (ScopeTree.admits_addReader htied hadd)
          (.reader Array.mem_push_self) hsame.manned
          (fun {c' _ _ _ _ _} hcell' has => .cell (c := c') hcell' has) (fun _ => id)
          (fun _ hmem => Array.mem_push_of_mem _ hmem) fun _ => id
      · exact hsame
    · exact hsame
  | move handle y =>
    cases handle <;>
    · unfold Workspace.operate
      simp only
      split
      · exact hsame.push (by simp)
      · exact hsame
  | remove handle =>
    cases handle <;>
    · unfold Workspace.operate
      simp only
      split
      · exact hsame.push (by simp)
      · exact hsame
  | newCell position expression scope automatic =>
    unfold Workspace.operate
    simp only
    refine setScope (of_same (w := w.putCell w.nextCell { expression, position, automatic })
      (hsame.replaced (fun hbefore => ?_) id fun _ hmem _ _ => hmem) rfl rfl rfl rfl) (cell?_putCell ..)
    rw [hunborn] at hbefore
    cases hbefore
  | setScope c scope =>
    refine hsame.onHeldCell fun cell hcell => ?_
    split
    · exact hsame.setScope hcell
    · exact hsame
  | setExpression c e =>
    have hreleased : (w.push [.releaseCell c]).Allotted (w.push [.releaseCell c]).agenda left :=
      hsame.push (by simp)
    exact hsame.onHeldCell fun cell hcell => hreleased.batch hcell { cell with expression := e } rfl rfl
      true
  | setPosition c y =>
    have hreleased : (w.push [.releaseCell c]).Allotted (w.push [.releaseCell c]).agenda left :=
      hsame.push (by simp)
    refine hsame.onHeldCell fun cell hcell => ?_
    split
    · exact hsame
    · exact hreleased.batch hcell { cell with position := y } rfl rfl false
  | _ => cases henlists

/-! ### Tasks -/

/-- One task leaves nobody without an owner. -/
theorem perform (h : w.Allotted (task :: w.agenda) left) (hsubscriptions : w.subscriptions = #[])
    (hprompt : w.backend.Prompt) (hposted : w.Posted (task :: w.agenda)) (htied : w.tree.WellTied)
    (hunborn : w.cell? w.nextCell = none) (hsafe : task.rank ≠ .idle → task.Safe w.tree) :
    (w.perform task).Allotted (w.perform task).agenda left := by
  by_cases hcalm : ∀ op, task = .operate op → op.enlists = false
  swap
  · obtain ⟨op, rfl, henlists⟩ : ∃ op, task = .operate op ∧ op.enlists = true := by
      simpa using hcalm
    exact h.operate htied hunborn henlists
  by_cases hidle : task.rank = .idle
  · refine h.idle hidle (perform_rests htied hidle hcalm)
      fun {c cell} hcell => ?_
    have hcell' : (w.perform task).cell? c ≠ none :=
      cell?_perform_ne_none hsubscriptions hprompt (by rw [hcell]; rintro ⟨⟩)
    obtain ⟨cell', hcell'⟩ := Option.ne_none_iff_exists'.mp hcell'
    obtain ⟨before, hbefore, hsame⟩ := samePost_perform hidle hcalm hcell'
    cases hcell.symm.trans hbefore
    exact ⟨cell', hcell', hsame⟩
  have hsafe := hsafe hidle
  cases task with
  | moveDefinition s x y =>
    exact moved (j := .definition) h (ScopeTree.shifts_moveDefinition htied s x y) _
  | moveReader s r y => exact moved (j := .reader) h (ScopeTree.shifts_moveReader htied hsafe y) _
  | removeDefinition s x =>
    exact removed (j := .definition) h (ScopeTree.quits_removeDefinition htied s x) _
  | removeReader s r => exact removed (j := .reader) h (ScopeTree.quits_removeReader htied hsafe) _
  | keepDefinition s x name => exact h.keepDefinition
  | cell c driven =>
    cases hcell : w.cell? c with
    | none =>
      rw [perform_cell_of_none hcell]
      cases driven with
      | keepOutput s name x => exact absurd hcell (h.manned List.mem_cons_self)
      | _ => exact h.drop (by rintro ⟨⟩) (by rintro ⟨⟩)
    | some cell =>
      rw [perform_cell hcell]
      cases driven with
      | enter scope =>
        have hsame : w.Allotted w.agenda left := h.drop (by rintro ⟨⟩) (by rintro ⟨⟩)
        exact hsame.batch hcell { cell with scope } rfl rfl true
      | synchronize =>
        unfold performCell
        simp only
        split
        · exact h.drop (by rintro ⟨⟩) (by rintro ⟨⟩)
        · exact h.synchronize hcell _
      | addOutput s name y => exact h.addOutput htied hcell
      | keepOutput s name x =>
        exact h.keepOutput hcell (hposted.keeping List.mem_cons_self hcell).2.1
      | addInput s name y => exact h.addInput htied hcell
      | _ => exact absurd rfl hidle
  | _ => exact absurd rfl hidle

end Allotted

/-- What a cell has when the client lets go of it. -/
def Abandons (w : Workspace) (task : Task) (k : Role) (s : ScopeId) (x : Nat) : Prop :=
  ∃ c cell n, task = .operate (.dropCell c) ∧ w.cell? c = some cell ∧ cell.Has n s x k

/-- The next step leaves nobody without an owner, but what a cell has may be left behind. -/
theorem Allotted.step {rest : List Task} (h : w.Allotted w.agenda left)
    (hagenda : w.agenda = task :: rest) (hsecluded : w.Secluded) (hposted : w.Posted w.agenda) :
    w.step.Allotted w.step.agenda fun k s x => left k s x ∨ w.Abandons task k s x := by
  rw [step_of_agenda hagenda]
  have hop : ∀ {op}, task = .operate op → ¬op.Subscribes ∧ (op.Answers ∨ rest = []) :=
    fun heq => hsecluded.answers_or_quiet hagenda heq
  rw [hagenda] at h hposted
  have htied := (hsecluded.ready.perform hagenda).tied
  have hunborn : w.cell? w.nextCell = none := by
    cases hcell : w.cell? w.nextCell with
    | none => rfl
    | some cell => exact absurd (hsecluded.numbered hcell) (Nat.lt_irrefl _)
  have hperformed := perform (w := { w with agenda := rest }) (of_same h rfl rfl rfl rfl)
    hsecluded.subscriptions hsecluded.prompt (hposted.of_same rfl rfl rfl rfl) hsecluded.ready.tied
    hunborn fun hidle => hsecluded.ready.safe hagenda (by rintro s name v rfl; exact hidle rfl)
  have hheld : ∀ {c}, (({ w with agenda := rest } : Workspace).perform task).cell? c ≠ none →
      task ≠ .operate (.dropCell c) →
      c ∈ (({ w with agenda := rest } : Workspace).perform task).heldCells := fun hcell hdrop =>
    held_perform hsecluded.subscriptions hsecluded.prompt (fun hcell => hsecluded.held hcell) hcell hdrop
  have hdropped : ∀ {c}, task = .operate (.dropCell c) →
      (({ w with agenda := rest } : Workspace).perform task).cell? c = w.cell? c ∧
      (({ w with agenda := rest } : Workspace).perform task).agenda = [] := by
    rintro c rfl
    exact ⟨rfl, (hop rfl).2.resolve_left not_false⟩
  generalize ({ w with agenda := rest } : Workspace).perform task = v at *
  have hstays : ∀ {c cell}, v.cell? c = some cell → task ≠ .operate (.dropCell c) →
      v.sweep.cell? c = some cell := fun hcell hdrop =>
    cell?_sweep_of_held (hheld (by rw [hcell]; rintro ⟨⟩) hdrop) hcell
  obtain ⟨cells, tree, hsweep, -⟩ := v.exists_sweep_eq
  refine hperformed.mono (fun {c s name x} hmem => ?_) (fun hx => .inl ⟨_, _, ((enrolled_sweep htied).mp hx).1⟩)
    (fun {c cell n s x k} hcell has => ?_) (by simp [hsweep]) (by simp [hsweep])
    (fun hmem => .promised (by rwa [sweep_agenda])) (fun _ hmem => by rwa [sweep_agenda]) .inl
  · rw [sweep_agenda] at hmem
    obtain ⟨cell, hcell⟩ := Option.ne_none_iff_exists'.mp (hperformed.manned hmem)
    rw [hstays hcell ?_]
    · rintro ⟨⟩
    · intro hdrop
      rw [(hdropped hdrop).2] at hmem
      cases hmem
  · by_cases hdrop : task = .operate (.dropCell c)
    · exact .left (.inr ⟨c, cell, n, hdrop, (hdropped hdrop).1 ▸ hcell, has⟩)
    · exact .cell (hstays hcell hdrop) has

end Workspace

end MathCanvas
