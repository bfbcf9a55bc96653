import MathCanvas.Proofs.Document.Gradings
import Mathlib.Logic.Hydra

/-!
# Cascades

All that an operation of a document sets off is a *cascade*: every task has a height
(`Workspace.Cascade`), and a step replaces a task by lower ones
(`Workspace.Cascading.exists_cascade_step`). So a cascade comes to an end, as Hercules gets the
better of the hydra. Whatever stands before a task of a refresh is lower than what tells the cell
(`Workspace.Stacked`), and therefore no cell is told of anything while a refresh of it is in
progress (`Workspace.Cascade.not_refreshes`).
-/

namespace MathCanvas

open Relation

namespace Workspace

variable {w w' : Workspace} {g : Grading} {c c' : CellId} {cell cell' : Cell} {name : String}
  {s : ScopeId} {x : Nat} {role : Role} {l : Listener} {task t : Task} {tasks rest : List Task}
  {k k' : Height} {heights : List Height}

/-! ### Cells and scopes that stay -/

/-- Cells that are there stay at their positions, and unless they enter another scope, in their
scopes. -/
theorem seat_perform (hop : ∀ op, task = .operate op → op.Answers)
    (hcell' : (w.perform task).cell? c = some cell') : ∃ cell, w.cell? c = some cell ∧
      cell'.position = cell.position ∧
      ((∀ scope, task ≠ .cell c (.enter scope)) → cell'.scope = cell.scope) := by
  have hmakes : ¬w.Makes c task := by
    rintro ⟨-, position, expression, scope, automatic, rfl⟩
    exact hop _ rfl
  obtain ⟨cell, hcell⟩ := Option.ne_none_iff_exists'.mp
    ((perform_turn hmakes).numbered.2 (by rw [hcell']; rintro ⟨⟩))
  refine ⟨cell, hcell, ?_⟩
  cases perform_alters hcell hmakes hcell' with
  | evaluate =>
    have hpost := samePost_begin cell fun i => (w.inputValue i).isUnset
    exact ⟨hpost.position, fun _ => hpost.scope⟩
  | endBatch outer =>
    have hpost := samePost_resumed cell outer
    exact ⟨hpost.position, fun _ => hpost.scope⟩
  | enter scope => exact ⟨rfl, fun hne => absurd rfl (hne scope)⟩
  | unregister | edit | move | automate => exact (hop _ rfl).elim
  | _ => exact ⟨rfl, fun _ => rfl⟩

theorem shape?_of_sweep (w : Workspace) (s : ScopeId) :
    w.sweep.tree.shape? s = none ∨ w.sweep.tree.shape? s = w.tree.shape? s := by
  refine w.tree_sweep (R := fun t t' => t'.shape? s = none ∨ t'.shape? s = t.shape? s)
    (fun _ => .inr rfl) (fun {t u t'} h h' => ?_) (fun t p r l => ?_) fun t p => ?_
  · rcases h' with h' | h'
    · exact .inl h'
    · rwa [h']
  · have hsame : t.SameShape (t.ignoreReader p r l) := .of_modify fun _ => ⟨rfl, rfl, rfl⟩
    exact .inr (hsame.shape?_eq s)
  · by_cases hp : p = s
    · subst hp
      exact .inl (ScopeTree.shape?_eq_none_iff.mpr (ScopeTree.get?_remove_self t p))
    · exact .inr (ScopeTree.shape?_remove t hp)

/-- Some cells and scopes are left, where they were. -/
structure Stays (w w' : Workspace) : Prop where
  cells : ∀ {c : CellId} {cell' : Cell}, w'.cell? c = some cell' →
    ∃ cell, w.cell? c = some cell ∧ cell'.position = cell.position ∧ cell'.scope = cell.scope
  scopes : ∀ {s : ScopeId} {scope' : Scope}, w'.tree.get? s = some scope' →
    ∃ scope, w.tree.get? s = some scope ∧ scope'.start = scope.start ∧
      scope'.ancestors = scope.ancestors

theorem Arranged.stay (h : w.Arranged g) (hstays : w.Stays w') : w'.Arranged g where
  cells hcell hcell' hs hs' hlt := by
    obtain ⟨before, hbefore, hposition, hscope⟩ := hstays.cells hcell
    obtain ⟨before', hbefore', hposition', hscope'⟩ := hstays.cells hcell'
    rw [hposition, hposition'] at hlt
    exact h.cells hbefore hbefore' (hscope ▸ hs) (hscope' ▸ hs') hlt
  scopes hcell hs hs' hparent hle := by
    obtain ⟨before, hbefore, hposition, hscope⟩ := hstays.cells hcell
    obtain ⟨inner, hinner, hstart, hancestors⟩ := hstays.scopes hs'
    rw [hposition, hstart] at hle
    exact h.scopes hbefore (hscope ▸ hs) hinner (hancestors ▸ hparent) hle
  within hcell hs := by
    obtain ⟨before, hbefore, -, hscope⟩ := hstays.cells hcell
    exact h.within hbefore (hscope ▸ hs)
  nested hs' hparent := by
    obtain ⟨inner, hinner, -, hancestors⟩ := hstays.scopes hs'
    exact h.nested hinner (hancestors ▸ hparent)

theorem stays_perform (hop : ∀ op, task = .operate op → op.Answers)
    (henter : ∀ c scope, task ≠ .cell c (.enter scope)) : w.Stays (w.perform task) where
  cells hcell' := by
    obtain ⟨cell, hcell, hposition, hscope⟩ := seat_perform hop hcell'
    exact ⟨cell, hcell, hposition, hscope fun scope => henter _ scope⟩
  scopes hs := by
    have hkeeps := perform_keepsScopes (w := w) fun op heq => (hop op heq).inDocument.not_houses
    obtain ⟨scope, hscope, -, hstart, hancestors⟩ := hkeeps.shape.exists_of_get? hs
    exact ⟨scope, hscope, hstart.symm, hancestors.symm⟩

theorem stays_sweep (w : Workspace) : w.Stays w.sweep where
  cells hcell' := by
    obtain ⟨cells, tree, heq, hcells⟩ := w.exists_sweep_eq
    rw [heq] at hcell'
    exact ⟨_, hcells hcell', rfl, rfl⟩
  scopes {s scope'} hs := by
    have hshape : w.sweep.tree.shape? s = w.tree.shape? s := by
      refine (w.shape?_of_sweep s).resolve_left fun hnone => ?_
      rw [ScopeTree.shape?_eq_none_iff, hs] at hnone
      cases hnone
    rw [ScopeTree.shape?, hs, Option.map_some] at hshape
    obtain ⟨scope, hscope, heq⟩ := Option.map_eq_some_iff.mp hshape.symm
    simp only [Prod.mk.injEq] at heq
    exact ⟨scope, hscope, heq.2.1.symm, heq.2.2.symm⟩

/-! ### Sweeping -/

/-- When every cell is held, sweeping takes no cell away. -/
theorem proceeds_sweep (hheld : ∀ {c : CellId}, w.cell? c ≠ none → c ∈ w.heldCells) :
    w.Proceeds w.sweep where
  cells {c cell'} hcell' := by
    obtain ⟨cells, tree, heq, hcells⟩ := w.exists_sweep_eq
    rw [heq] at hcell'
    exact ⟨cell', hcells hcell', .refl _, rfl, le_refl _, fun _ plan' hplan =>
      ⟨plan', hplan, le_refl _⟩⟩
  present {c} hcell := by
    obtain ⟨cell, hfound⟩ := Option.ne_none_iff_exists'.mp hcell
    rw [cell?_sweep_of_held (hheld hcell) hfound]
    rintro ⟨⟩
  hushes := w.tree_sweep .refl .trans ScopeTree.hushes_ignoreReader ScopeTree.hushes_remove

theorem Under.sweep (h : w.Under g task k)
    (hheld : ∀ {c : CellId}, w.cell? c ≠ none → c ∈ w.heldCells) : w.sweep.Under g task k := by
  by_cases hop : ∃ op, task = .operate op
  · obtain ⟨op, rfl⟩ := hop
    obtain ⟨cells, tree, heq, hcells⟩ := w.exists_sweep_eq
    rw [heq]
    cases op with
    | answer id answer =>
      cases id with
      | none => exact h
      | some id => exact fun command hcommand cell hcell => h command hcommand cell (hcells hcell)
    | _ => exact h
  · exact h.proceed (proceeds_sweep hheld) fun op heq => hop ⟨op, heq⟩

/-! ### Refreshes in progress -/

/-- Whatever stands before a task of a refresh of a cell is lower than what tells the cell. -/
def Stacked (g : Grading) (w : Workspace) (agenda : List Task) : Prop :=
  ∀ c pre later post, agenda = pre ++ later :: post → later.refreshes c = true →
    ∀ task ∈ pre, ∃ k < height 0 (g.cell c) 7 0, w.Under g task k

/-- No refresh is in progress, but one may be about to begin. -/
theorem stacked_of_tail {agenda : List Task}
    (h : ∀ task ∈ agenda.tail, ∀ c, task.refreshes c = false) : w.Stacked g agenda := by
  rintro c pre later post rfl hlater task hmem
  cases pre with
  | nil => cases hmem
  | cons first pre =>
    rw [h later (by simp) c] at hlater
    cases hlater

/-- An element of a list in two parts is in one of them. -/
theorem cases_of_append_cons {α : Type} {front back pre post : List α} {x : α}
    (h : front ++ back = pre ++ x :: post) :
    (∃ mid, pre = front ++ mid ∧ back = mid ++ x :: post) ∨ x ∈ front ∧ ∀ y ∈ pre, y ∈ front := by
  rcases List.append_eq_append_iff.mp h with ⟨mid, hpre, hback⟩ | ⟨mid, hfront, hback⟩
  · exact .inl ⟨mid, hpre, hback⟩
  · cases mid with
    | nil => exact .inl ⟨[], by simpa using hfront.symm, hback.symm⟩
    | cons y mid =>
      obtain ⟨rfl, -⟩ := List.cons.inj hback
      rw [hfront]
      exact .inr ⟨by simp, fun y hy => List.mem_append_left _ hy⟩

/-- What a task sets off takes its place before the refreshes in progress. -/
theorem Stacked.spawn (h : w.Stacked g (task :: w.agenda)) (hagenda : w'.agenda = tasks ++ w.agenda)
    (hspawns : ∀ {k}, w.Under g task k → Spawns g w task k w')
    (hkept : ∀ {t k}, t ∈ w.agenda → w.Under g t k → w'.Under g t k) (hunder : w.Under g task k) :
    w'.Stacked g w'.agenda := by
  intro c pre later post heq hlater t ht
  -- whatever the task is under, what it sets off is lower
  have hlower : ∀ {k}, w.Under g task k → t ∈ tasks → ∃ k' < k, w'.Under g t k' :=
    fun hunder hmem => ((hspawns hunder).yields hagenda t hmem).under
  rcases cases_of_append_cons (hagenda.symm.trans heq) with ⟨mid, rfl, hrest⟩ | ⟨hmem, hpre⟩
  · -- the refresh was in progress before
    have hbefore := h c (task :: mid) later post (by rw [hrest, List.cons_append]) hlater
    rcases List.mem_append.mp ht with ht | ht
    · obtain ⟨k, hk, hunder⟩ := hbefore task List.mem_cons_self
      obtain ⟨k', hk', hunder'⟩ := hlower hunder ht
      exact ⟨k', hk'.trans hk, hunder'⟩
    · obtain ⟨k, hk, hunder⟩ := hbefore t (List.mem_cons_of_mem _ ht)
      exact ⟨k, hk, hkept (by rw [hrest]; exact List.mem_append_left _ ht) hunder⟩
  · -- the refresh begins or goes on with this task
    exact hlower (((hspawns hunder).yields hagenda later hmem).own c hlater) (hpre t ht)

/-- A change in progress: each task has a height, and refreshes of a cell do not get in the way of
one another. -/
structure Cascade (g : Grading) (heights : List Height) (w : Workspace) (agenda : List Task) :
    Prop where
  under : List.Forall₂ (w.Under g) agenda heights
  phased : Phased agenda
  called : ∀ op, .operate op ∉ agenda.tail
  stacked : w.Stacked g agenda
  arranged : w.Arranged g

/-- The rest of the workspace does not matter. -/
theorem Cascade.of_same {agenda : List Task} (h : w.Cascade g heights agenda)
    (htree : w'.tree = w.tree) (hcells : w'.cells = w.cells)
    (hcommands : w'.commands = w.commands) :
    w'.Cascade g heights agenda where
  under := h.under.imp fun task k htask => htask.of_same htree hcells hcommands
  phased := h.phased
  called := h.called
  stacked c pre later post heq hlater task hmem := by
    obtain ⟨k, hk, hunder⟩ := h.stacked c pre later post heq hlater task hmem
    exact ⟨k, hk, hunder.of_same htree hcells hcommands⟩
  arranged := by
    refine h.arranged.stay ⟨fun {c cell'} hcell' => ⟨cell', ?_, rfl, rfl⟩,
      fun {s scope'} hs => ⟨scope', htree ▸ hs, rfl, rfl⟩⟩
    rw [cell?, hcells] at hcell'
    exact hcell'

theorem Cascade.exists_under {agenda : List Task} (h : w.Cascade g heights agenda)
    (ht : t ∈ agenda) : ∃ k, w.Under g t k := by
  obtain ⟨i, hi, rfl⟩ := List.getElem_of_mem ht
  exact ⟨_, h.under.get hi (h.under.length_eq ▸ hi)⟩

theorem Cascade.sweep (h : w.Cascade g heights w.agenda)
    (hheld : ∀ {c : CellId}, w.cell? c ≠ none → c ∈ w.heldCells) :
    w.sweep.Cascade g heights w.sweep.agenda := by
  rw [w.sweep_agenda]
  refine ⟨h.under.imp fun task k htask => htask.sweep hheld, h.phased, h.called, ?_,
    h.arranged.stay w.stays_sweep⟩
  intro c pre later post heq hlater task hmem
  obtain ⟨k, hk, hunder⟩ := h.stacked c pre later post heq hlater task hmem
  exact ⟨k, hk, hunder.sweep hheld⟩

/-! ### One step -/

/-- Some heights are lower as a whole: one of them gave way to others below it. -/
abbrev Lowers (heights' heights : List Height) : Prop :=
  CutExpand (· < ·) (heights' : Multiset Height) (heights : Multiset Height)

theorem lowers_cons {lower : List Height} (h : ∀ k' ∈ lower, k' < k) :
    Lowers (lower ++ heights) (k :: heights) := by
  refine ⟨(lower : Multiset Height), k, fun k' hk' => h k' (by simpa using hk'), ?_⟩
  rw [← Multiset.coe_add, ← Multiset.cons_coe, ← Multiset.singleton_add,
    Multiset.add_comm _ {k}, Multiset.add_comm (lower : Multiset Height), Multiset.add_assoc]

/-- A task gives way to lower ones. -/
theorem exists_lowers (hunder : List.Forall₂ (w.Under g) rest heights)
    (htasks : ∀ t ∈ tasks, ∃ k' < k, w.Under g t k') : ∃ heights',
      List.Forall₂ (w.Under g) (tasks ++ rest) heights' ∧ Lowers heights' (k :: heights) := by
  have hlower : ∃ lower, List.Forall₂ (w.Under g) tasks lower ∧ ∀ k' ∈ lower, k' < k := by
    induction tasks with
    | nil => exact ⟨[], .nil, by simp⟩
    | cons t tasks ih =>
      obtain ⟨lower, hlower, hlt⟩ := ih fun t' ht' => htasks t' (List.mem_cons_of_mem _ ht')
      obtain ⟨k', hk', ht⟩ := htasks t List.mem_cons_self
      exact ⟨k' :: lower, .cons ht hlower, List.forall_mem_cons.mpr ⟨hk', hlt⟩⟩
  obtain ⟨lower, hlower, hlt⟩ := hlower
  exact ⟨lower ++ heights, List.rel_append hlower hunder, lowers_cons hlt⟩

/-- What waits keeps its heights if each task does. -/
theorem forall₂_under {g' : Grading} (h : List.Forall₂ (w.Under g) rest heights)
    (hkept : ∀ {t k}, t ∈ rest → w.Under g t k → w'.Under g' t k) :
    List.Forall₂ (w'.Under g') rest heights := by
  induction h with
  | nil => exact .nil
  | cons hunder _ ih =>
    exact .cons (hkept List.mem_cons_self hunder) (ih fun ht => hkept (List.mem_cons_of_mem _ ht))

/-- If a task calls an operation, it does nothing else. -/
theorem operate_not_mem_tail (hsubscriptions : w.subscriptions = #[])
    (himmediate : w.backend.Immediate) (task : Task) (hcalm : ∀ op, .operate op ∉ w.agenda) :
    ∀ op, .operate op ∉ (w.perform task).agenda.tail := by
  have hnone : ∀ {tasks agenda}, agenda = tasks ++ w.agenda → (∀ op, .operate op ∉ tasks) →
      ∀ op, .operate op ∉ agenda.tail := by
    rintro tasks _ rfl htasks op hop
    rcases List.mem_append.mp (List.mem_of_mem_tail hop) with hop | hop
    · exact htasks op hop
    · exact hcalm op hop
  by_cases hdrop : ∃ c, task = .operate (.dropCell c)
  · obtain ⟨c, rfl⟩ := hdrop
    exact hnone (List.nil_append _).symm (by simp)
  by_cases hkept : ∃ c, .invalidated c ∈ w.deeds task
  · obtain ⟨c, hc⟩ := hkept
    obtain ⟨cell, new, more, -, heq, -, hmore⟩ := perform_of_invalidated hc
    rw [heq]
    have hagenda : ((w.putCell c new).push (cancelTasks cell.active ++ more)).agenda =
        (cancelTasks cell.active ++ more) ++ w.agenda := rfl
    refine hnone hagenda fun op hop => ?_
    rcases List.mem_append.mp hop with hop | hop
    · simp [cancelTasks] at hop
    · exact hmore.operate_not_mem op hop
  have hhandles := perform_handles himmediate.onCancel task
  generalize w.perform task = w', w.deeds task = ds at hhandles hkept
  cases hhandles with
  | leave hquiet =>
    have htacit := perform_tacit hsubscriptions hquiet (fun c hc => hkept ⟨c, hc⟩)
      fun c heq => hdrop ⟨c, heq⟩
    obtain ⟨tasks, hagenda, htasks⟩ := htacit.agenda
    exact hnone hagenda htasks.operate_not_mem
  | @send c cell e hcell hrequest =>
    obtain ⟨answer, -, hanswer⟩ := himmediate.onDispatch w.nextCommand ⟨c, w.definedInputs cell, e⟩
    intro op hop
    refine hcalm op ?_
    have hagenda : (w.dispatch c cell e).agenda =
        .operate (.answer (some w.nextCommand) answer) :: w.agenda := by
      show (w.backend.onDispatch _ _).map Task.operate ++ w.agenda = _
      rw [hanswer]
      rfl
    rwa [hagenda] at hop
  | cancel | withdraw | ignore => exact hnone (List.nil_append _).symm (by simp)
  | take _ _ _ _ _ _ htasks =>
    refine hnone rfl fun op hop => ?_
    rcases htasks _ hop with ⟨s, slot, v, heq⟩ | ⟨g, heq⟩ | heq <;> cases heq

theorem Under.answers {op : Op} (h : w.Under g (.operate op) k) : op.Answers := by
  cases op with
  | answer => trivial
  | _ => exact h.elim

/-- A task of a refresh passes on values. -/
theorem calm_of_ne_talk (htask : task.phase ≠ .talk) (c : CellId) : task.refreshes c = false := by
  cases task with
  | cell c' driven => cases driven <;> first | exact absurd rfl htask | simp [Task.refreshes,
      CellTask.refreshes]
  | _ => rfl

theorem Cascade.exists_cons (h : w.Cascade g heights (task :: w.agenda)) :
    ∃ k heights', heights = k :: heights' ∧ w.Under g task k ∧
      List.Forall₂ (w.Under g) w.agenda heights' ∧ ∀ op, .operate op ∉ w.agenda := by
  obtain ⟨k, heights', hunder, hrest, rfl⟩ := List.forall₂_cons_left_iff.mp h.under
  exact ⟨k, heights', rfl, hunder, hrest, h.called⟩

section Step

variable (hsubscriptions : w.subscriptions = #[]) (himmediate : w.backend.Immediate)
  (h : w.Cascade g heights (task :: w.agenda))
include hsubscriptions himmediate h

/-- Values are passed on. -/
theorem Cascade.perform_passes (hgraded : task.phase = .talk → w.Graded g)
    (hconsistent : w.tree.Consistent)
    (hsilent : ∀ {s : ScopeId} {x : SlotId} {l : Listener}, l ∈ w.tree.definitionListeners s x →
      ∃ n, l = .client n)
    (hpasses : task.passes = true) : ∃ heights',
      (w.perform task).Cascade g heights' (w.perform task).agenda ∧ Lowers heights' heights := by
  obtain ⟨k, heights, rfl, hunder, hrest, hcalm⟩ := h.exists_cons
  have hop : ∀ op, task = .operate op → op.Answers := by
    rintro op rfl
    exact hunder.answers
  have hspawns : ∀ {k}, w.Under g task k → Spawns g w task k (w.perform task) := fun hunder =>
    spawns_perform hgraded hconsistent hsubscriptions himmediate hsilent hpasses hunder
  have hproceeds := proceeds_perform hsubscriptions himmediate.prompt hpasses hop
  have hkept : ∀ {t k}, t ∈ w.agenda → w.Under g t k → (w.perform task).Under g t k :=
    fun ht hunder => hunder.proceed hproceeds fun op heq => hcalm op (heq ▸ ht)
  obtain ⟨tasks, hagenda, hyields⟩ := hspawns hunder
  obtain ⟨heights', hunder', hlowers⟩ :=
    exists_lowers (forall₂_under hrest hkept) fun t ht => (hyields t ht).under
  refine ⟨heights', ⟨hagenda ▸ hunder', ?_, ?_, ?_, ?_⟩, hlowers⟩
  · rw [hagenda]
    refine h.phased.replace (phased_of_passes fun t ht => (hyields t ht).passes) fun t ht => ?_
    rcases Task.phase_of_passes hpasses with hphase | hphase
    · rw [hphase]
      rcases Task.phase_of_passes (hyields t ht).passes with heq | heq <;> rw [heq]
      · exact Phase.replaces_self _
      · exact Phase.release_replaces _
    · -- nothing is set off
      rw [agenda_of_release himmediate hphase, List.self_eq_append_left] at hagenda
      rw [hagenda] at ht
      cases ht
  · exact operate_not_mem_tail hsubscriptions himmediate task hcalm
  · exact h.stacked.spawn hagenda hspawns hkept hunder
  · refine h.arranged.stay (stays_perform hop ?_)
    rintro c scope rfl
    cases hpasses

/-- Somebody is enrolled. -/
theorem Cascade.perform_enroll
    (howner : ∀ {c c' : CellId} {cell cell' : Cell} {name n : String} {q : ScopeId} {x : Nat}
      {role : Role}, w.cell? c = some cell → w.cell? c' = some cell' → cell.Has name q x role →
      cell'.Has n q x role → c = c')
    (htask : task.enrolls = true) : ∃ heights',
      (w.perform task).Cascade g heights' (w.perform task).agenda ∧ Lowers heights' heights := by
  obtain ⟨k, heights, rfl, hunder, hrest, hcalm⟩ := h.exists_cons
  have hpasses := Task.passes_of_enrolls htask
  obtain ⟨tasks, hagenda, henrolls⟩ := enrolls_perform howner htask hunder
  have hreserves := reserves_perform htask hunder
  obtain ⟨heights', hunder', hlowers⟩ := exists_lowers
    (forall₂_under hrest fun ht hunder => hunder.reserve hreserves (h.phased.ne_talk hpasses ht))
    henrolls.under
  refine ⟨heights', ⟨hagenda ▸ hunder', ?_, ?_, stacked_of_tail fun t ht c => ?_, ?_⟩, hlowers⟩
  · rw [hagenda]
    exact h.phased.replace henrolls.phased henrolls.replaces
  · exact operate_not_mem_tail hsubscriptions himmediate task hcalm
  · have ht := List.mem_of_mem_tail ht
    rw [hagenda] at ht
    rcases List.mem_append.mp ht with ht | ht
    · exact henrolls.calm t ht c
    · exact calm_of_ne_talk (h.phased.ne_talk hpasses ht) c
  · refine h.arranged.stay (stays_perform ?_ ?_)
    · rintro op rfl
      exact hunder.answers
    · rintro c scope rfl
      cases htask

end Step

/-- What only gives something up has any height. -/
theorem Under.of_release (h : task.phase = .release) : w.Under g task k := by
  cases task with
  | cell c driven => cases driven <;> cases h
  | notifyReaders s readers =>
    cases readers with
    | nil => exact ⟨grade 0 0, by simp, k.floor_zero_le⟩
    | cons => cases h
  | cancel | releaseScope | releaseCell => trivial
  | _ => cases h

/-- When only references are left to be given up, grades may be others from then on. -/
theorem Cascade.close {g' : Grading} (h : w.Cascade g heights (task :: w.agenda))
    (hphase : task.phase = .close) (hagenda : w'.agenda = tasks ++ w.agenda)
    (htasks : ∀ {k}, w.Under g task k → ∀ t ∈ tasks, ∃ k' < k, w'.Under g' t k')
    (hphased : Phased tasks) (hcalm : ∀ op, .operate op ∉ tasks)
    (hstill : ∀ t ∈ tasks.tail, ∀ c, t.refreshes c = false) (harranged : w'.Arranged g') :
    ∃ heights', w'.Cascade g' heights' w'.agenda ∧ Lowers heights' heights := by
  obtain ⟨k, heights, rfl, hunder, hrest, hcalm'⟩ := h.exists_cons
  have hrelease : ∀ t ∈ w.agenda, t.phase = .release := fun t ht => h.phased.release hphase ht
  obtain ⟨heights', hunder', hlowers⟩ := exists_lowers
    (forall₂_under hrest fun ht _ => Under.of_release (hrelease _ ht)) (htasks hunder)
  rw [hagenda]
  refine ⟨heights', ⟨hunder', ?_, fun op hop => ?_, stacked_of_tail fun t ht c => ?_, harranged⟩,
    hlowers⟩
  · refine phased_append.mpr ⟨hphased, (phased_cons.mp h.phased).2, fun earlier _ later hl => ?_⟩
    rw [hrelease later hl]
    cases earlier.phase <;> rfl
  · rcases List.mem_append.mp (List.mem_of_mem_tail hop) with hop | hop
    · exact hcalm op hop
    · exact hcalm' op hop
  · have hmem : t ∈ tasks.tail ∨ t ∈ w.agenda := by
      cases tasks with
      | nil => exact .inr (List.mem_of_mem_tail ht)
      | cons first more => exact List.mem_append.mp ht
    rcases hmem with hmem | hmem
    · exact hstill t hmem c
    · exact calm_of_ne_talk (by rw [hrelease t hmem]; rintro ⟨⟩) c

/-- A cell enters a scope, from where on others may come after it. -/
theorem Cascade.perform_enter {scope : Option ScopeId}
    (h : w.Cascade g heights (.cell c (.enter scope) :: w.agenda))
    (hawake : ∀ cell, w.cell? c = some cell → cell.suspended = false) (htied : w.tree.WellTied) :
    ∃ g' heights', (w.perform (.cell c (.enter scope))).Cascade g' heights'
      (w.perform (.cell c (.enter scope))).agenda ∧ Lowers heights' heights := by
  cases hcell : w.cell? c with
  | none =>
    rw [perform_cell_of_none hcell]
    exact ⟨g, h.close rfl (List.nil_append _).symm (by simp) (by simp [Phased]) (by simp) (by simp)
      h.arranged⟩
  | some cell =>
    rw [perform_cell hcell]
    have hagenda : (w.performCell c cell (.enter scope)).agenda =
        [.cell c .synchronize, .cell c (.endBatch false true)] ++ w.agenda := by
      rw [← hawake cell hcell]
      rfl
    have harranged : (w.performCell c cell (.enter scope)).Arranged
        (w.performCell c cell (.enter scope)).inward := arranged_inward htied
    refine ⟨_, h.close rfl hagenda (fun {k} hk => ?_) (by simp [Phased, Task.phase, Phase.before])
      (by simp) (by simp [Task.refreshes, CellTask.refreshes]) harranged⟩
    have hk : .floor 4 ≤ k := hk
    have hbelow : ∀ n < 4, Height.floor n < k := fun n hn =>
      lt_of_lt_of_le (height_lt_of_stage hn) hk
    simp only [List.forall_mem_cons, List.not_mem_nil, false_implies, implies_true, and_true]
    refine ⟨⟨.floor 3, hbelow 3 (by omega), fun found hfound => ?_, le_refl _⟩,
      ⟨.floor 1, hbelow 1 (by omega), rfl, le_refl _⟩⟩
    have hlookup := cell?_putCell w c { cell with scope, suspended := true }
    cases hlookup.symm.trans hfound
    rfl

/-- A cell has been brought in step, and refreshes if it has to. -/
theorem Cascade.perform_endBatch {outer always : Bool}
    (h : w.Cascade g heights (.cell c (.endBatch outer always) :: w.agenda)) :
    ∃ heights', (w.perform (.cell c (.endBatch outer always))).Cascade g heights'
      (w.perform (.cell c (.endBatch outer always))).agenda ∧ Lowers heights' heights := by
  obtain ⟨-, -, -, ⟨rfl, -⟩, -⟩ := h.exists_cons
  have harranged : (w.perform (.cell c (.endBatch false always))).Arranged g :=
    h.arranged.stay (stays_perform (by rintro op ⟨⟩) (by rintro c' scope ⟨⟩))
  cases hcell : w.cell? c with
  | none =>
    rw [perform_cell_of_none hcell]
    exact h.close rfl (List.nil_append _).symm (by simp) (by simp [Phased]) (by simp) (by simp)
      h.arranged
  | some cell =>
    rw [perform_cell hcell] at harranged ⊢
    refine h.close rfl rfl (fun {k} hk t ht => ?_) ?_ ?_ ?_ harranged
    · have ht : t = .cell c .refresh := by
        split at ht
        · exact List.mem_singleton.mp ht
        · cases ht
      subst ht
      refine ⟨height 0 (g.cell c) 6 0, lt_of_lt_of_le (height_lt_of_stage (by omega)) hk.2,
        fun found hfound => ?_⟩
      have hlookup := cell?_putCell w c (cell.resumed false).2
      cases hlookup.symm.trans hfound
      exact ⟨rfl, le_refl _⟩
    all_goals split <;> simp [Phased]

/-! ### Cascades of a document -/

/-- A workspace of a document whose cells stand in different places, over a backend that answers
every command while it is dispatched. -/
structure Cascading (w : Workspace) : Prop where
  enlisted : w.Enlisted
  secluded : w.Secluded
  immediate : w.backend.Immediate
  spaced : w.Spaced

/-- The rest of a cascade is lower after each of its tasks. -/
theorem Cascading.perform (hw : w.Cascading) (hagenda : w.agenda = task :: rest)
    (h : w.Cascade g heights w.agenda) : ∃ g' heights',
      (({ w with agenda := rest } : Workspace).perform task).Cascade g' heights'
        (({ w with agenda := rest } : Workspace).perform task).agenda ∧
      Lowers heights' heights := by
  have htied : w.tree.WellTied := hw.enlisted.ready.tied
  have hbatched := hw.secluded.batched
  let v : Workspace := { w with agenda := rest }
  have hv : v.Cascade g heights (task :: v.agenda) := by
    rw [hagenda] at h
    exact h.of_same rfl rfl rfl
  cases hphase : task.phase with
  | talk | release =>
    have hgraded : task.phase = .talk → v.Graded g := by
      intro htalk
      have hstays := hv.phased.not_removeReader (.inl htalk)
      obtain ⟨houtput, himporter⟩ := h.arranged.graded (fun t ht => h.exists_under ht) hw.enlisted
        hw.secluded hw.spaced (by rw [hagenda]; exact hstays)
      exact ⟨houtput, himporter⟩
    exact ⟨g, hv.perform_passes hw.secluded.subscriptions hw.immediate hgraded htied.allConsistent
      hw.secluded.attuned.silent (by rw [Task.passes, hphase]; rfl)⟩
  | leave | enroll =>
    exact ⟨g, hv.perform_enroll hw.secluded.subscriptions hw.immediate
      (fun hcell hcell' has has' =>
        hw.enlisted.posted.owner_eq hw.enlisted.apportioned hcell hcell' has has')
      (by rw [Task.enrolls, hphase]; rfl)⟩
  | close =>
    cases task with
    | cell c driven =>
      cases driven with
      | enter scope =>
        refine hv.perform_enter (fun cell hcell => ?_) htied
        refine (hbatched c).not_suspended (fun always hmem => ?_) hcell
        rw [hagenda] at hmem
        have hrelease := hv.phased.release rfl ((List.mem_cons.mp hmem).resolve_left (by rintro ⟨⟩))
        cases hrelease
      | endBatch => exact ⟨g, hv.perform_endBatch⟩
      | _ => cases hphase
    | notifyReaders s readers => cases readers <;> cases hphase
    | _ => cases hphase

/-- Unless it calls an operation of the client's, a step leaves cells where they are. -/
theorem position_step (hagenda : w.agenda = task :: rest)
    (hop : ∀ op, task = .operate op → op.Answers) (hcell' : w.step.cell? c = some cell') :
    ∃ cell, w.cell? c = some cell ∧ cell'.position = cell.position := by
  rw [step_of_agenda hagenda] at hcell'
  obtain ⟨before, hbefore, hposition, -⟩ := (stays_sweep _).cells hcell'
  obtain ⟨cell, hcell, hposition', -⟩ := seat_perform hop hbefore
  exact ⟨cell, hcell, hposition.trans hposition'⟩

theorem Cascading.step (hw : w.Cascading) (hagenda : w.agenda = task :: rest)
    (hop : ∀ op, task = .operate op → op.Answers) : w.step.Cascading where
  enlisted := hw.enlisted.step (by rw [hagenda]; rintro ⟨⟩)
  secluded := by
    rw [step_of_agenda hagenda]
    exact hw.secluded.step hagenda
  immediate := by
    have hclosed : ({ w with agenda := rest } : Workspace).Closed :=
      ⟨hw.secluded.subscriptions, hw.secluded.prompt.answering⟩
    have hresponds := (perform_responds hclosed fun op heq =>
      (hop op heq).not_subscribes).sweep
    rw [step_of_agenda hagenda, hresponds.backend]
    exact hw.immediate
  spaced := hw.spaced.of_positions fun hcell' => position_step hagenda hop hcell'

/-- The client refers to all cells still. -/
theorem Cascading.held_after (hw : w.Cascading) (hop : ∀ op, task = .operate op → op.Answers)
    {c : CellId} (hcell : (({ w with agenda := rest } : Workspace).perform task).cell? c ≠ none) :
    c ∈ (({ w with agenda := rest } : Workspace).perform task).heldCells := by
  refine held_perform (w := { w with agenda := rest }) hw.secluded.subscriptions
    hw.secluded.prompt (fun hpresent => hw.secluded.held hpresent) hcell ?_
  rintro rfl
  exact (hop _ rfl).elim

theorem Cascade.answers (h : w.Cascade g heights w.agenda) (hagenda : w.agenda = task :: rest) :
    ∀ op, task = .operate op → op.Answers := by
  rintro op rfl
  obtain ⟨k, hunder⟩ := h.exists_under (hagenda ▸ List.mem_cons_self : .operate op ∈ w.agenda)
  exact hunder.answers

/-- The rest of a cascade is lower after each step. -/
theorem Cascading.exists_cascade_step (hw : w.Cascading) (hagenda : w.agenda = task :: rest)
    (h : w.Cascade g heights w.agenda) : w.step.Cascading ∧
      ∃ g' heights', w.step.Cascade g' heights' w.step.agenda ∧ Lowers heights' heights := by
  have hop := h.answers hagenda
  obtain ⟨g', heights', hcascade, hlowers⟩ := hw.perform hagenda h
  refine ⟨hw.step hagenda hop, g', heights', ?_, hlowers⟩
  rw [step_of_agenda hagenda]
  exact hcascade.sweep fun hcell => hw.held_after hop hcell

theorem Under.awake (h : w.Under g task k) (htask : task.refreshes c = true)
    (hcell : w.cell? c = some cell) : cell.suspended = false := by
  cases task with
  | cell c' driven =>
    obtain ⟨rfl, hdriven⟩ := Task.refreshes_cell.mp htask
    cases driven with
    | refresh | invalidate | reconsider | evaluate | advance => exact (h cell hcell).1
    | _ => cases hdriven
  | _ => cases htask

end Workspace

end MathCanvas
