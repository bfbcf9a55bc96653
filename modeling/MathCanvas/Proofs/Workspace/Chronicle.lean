import MathCanvas.Proofs.Workspace.Batches
import MathCanvas.Proofs.Workspace.Clearing
import MathCanvas.Proofs.Workspace.Tacit

/-!
# Chronicles

A `Chronicle` lists the deeds of a workspace from its beginning. The client calls operations when
nothing is in progress, and subscribes to nothing; some condition says which operations it may call.
If the backend only answers the commands that it is given, no cell begins a run during a refresh of
it (`Chronicle.exists_run`).
-/

namespace MathCanvas

namespace Workspace

/-- What has been done in a closed workspace, and the workspace that has come of it. -/
inductive Chronicle (backend : Backend) (may : Workspace → Op → Prop) :
    List Deed → Workspace → Prop
  | start : Chronicle backend may [] { backend }
  | call {deeds : List Deed} {w : Workspace} (op : Op) : Chronicle backend may deeds w →
      w.agenda = [] → ¬op.Subscribes → may w op → Chronicle backend may deeds (w.call op)
  | step {deeds : List Deed} {w : Workspace} {task : Task} {rest : List Task} :
      Chronicle backend may deeds w → w.agenda = task :: rest →
      Chronicle backend may (deeds ++ ({ w with agenda := rest } : Workspace).deeds task) w.step

/-- What the next tasks do. -/
def coming (w : Workspace) : Nat → List Deed
  | 0 => []
  | n + 1 =>
    match w.agenda with
    | [] => []
    | task :: rest => ({ w with agenda := rest } : Workspace).deeds task ++ w.step.coming n

variable {w w' : Workspace} {backend : Backend} {may : Workspace → Op → Prop} {deeds : List Deed}
  {task : Task} {rest : List Task} {c : CellId}

/-- A workspace in which nobody but cells and importers listens. Cells are there as long as the
client refers to them, and operations are called from outside or answer a command while it is
dispatched. -/
structure Secluded (w : Workspace) : Prop where
  ready : w.Ready
  subscriptions : w.subscriptions = #[]
  prompt : w.backend.Prompt
  numbered : ∀ {c : CellId} {cell : Cell}, w.cell? c = some cell → c < w.nextCell
  operations : ∀ op, .operate op ∈ w.agenda →
    (∃ id answer, op = .answer (some id) answer ∧ id < w.nextCommand) ∨
      ¬op.Subscribes ∧ w.agenda = [.operate op]
  held : ∀ {c : CellId}, w.cell? c ≠ none → c ∈ w.heldCells
  attuned : w.Attuned w.agenda
  clearing : ∀ c, w.Clearing c w.agenda
  batched : ∀ c, w.Batched c w.agenda

/-- The operations that a task sets off are answers to the command that it sends. -/
theorem perform_operations (hsubscriptions : w.subscriptions = #[]) (hprompt : w.backend.Prompt)
    (task : Task) : w.nextCommand ≤ (w.perform task).nextCommand ∧
      ∃ tasks, (w.perform task).agenda = tasks ++ w.agenda ∧ ∀ op, .operate op ∈ tasks →
        (∃ answer, op = .answer (some w.nextCommand) answer) ∧
          w.nextCommand < (w.perform task).nextCommand := by
  by_cases hdrop : ∃ c, task = .operate (.dropCell c)
  · obtain ⟨c, rfl⟩ := hdrop
    exact ⟨Nat.le_refl _, [], rfl, by simp⟩
  by_cases hkept : ∃ c, .invalidated c ∈ w.deeds task
  · obtain ⟨c, hc⟩ := hkept
    obtain ⟨cell, new, more, -, heq, -, hmore⟩ := perform_of_invalidated hc
    refine ⟨by rw [heq]; exact Nat.le_refl _, cancelTasks cell.active ++ more, by rw [heq]; rfl,
      fun op hop => ?_⟩
    rcases List.mem_append.mp hop with hop | hop
    · simp [cancelTasks] at hop
    · exact absurd hop (hmore.operate_not_mem op)
  have hhandles := perform_handles hprompt.onCancel task
  generalize w.perform task = w', w.deeds task = ds at hhandles hkept
  cases hhandles with
  | leave hquiet =>
    have htacit := perform_tacit hsubscriptions hquiet (fun c hc => hkept ⟨c, hc⟩)
      fun c heq => hdrop ⟨c, heq⟩
    obtain ⟨tasks, hagenda, htasks⟩ := htacit.agenda
    exact ⟨htacit.nextCommand.ge, tasks, hagenda, fun op hop => absurd hop (htasks.operate_not_mem op)⟩
  | send hcell hrequest =>
    refine ⟨Nat.le_succ _, _, rfl, fun op hop => ⟨?_, Nat.lt_succ_self _⟩⟩
    obtain ⟨op', hop', heq⟩ := List.mem_map.mp hop
    cases heq
    exact hprompt.onDispatch _ _ _ hop'
  | cancel | withdraw | ignore => exact ⟨Nat.le_refl _, [], rfl, by simp⟩
  | take _ _ _ _ _ _ htasks =>
    refine ⟨Nat.le_refl _, _, rfl, fun op hop => ?_⟩
    rcases htasks _ hop with ⟨s, slot, v, heq⟩ | ⟨g, heq⟩ | heq <;> cases heq

theorem heldCells_newCell (w : Workspace) (position : Position) (expression : Expr)
    (scope : Option ScopeId) (automatic : Bool) :
    (w.operate (.newCell position expression scope automatic)).2.heldCells =
      w.heldCells ++ [w.nextCell] := by
  unfold operate
  simp only
  unfold setScope
  split <;> rfl

/-- The client goes on to refer to the cells to which it refers, until it lets go of one. -/
theorem mem_heldCells_perform (hsubscriptions : w.subscriptions = #[])
    (hprompt : w.backend.Prompt) (hdrop : ∀ c, task ≠ .operate (.dropCell c))
    (hc : c ∈ w.heldCells) : c ∈ (w.perform task).heldCells := by
  by_cases hkept : ∃ c', .invalidated c' ∈ w.deeds task
  · obtain ⟨c', hc'⟩ := hkept
    obtain ⟨cell, new, more, -, heq, -⟩ := perform_of_invalidated hc'
    rw [heq]
    exact hc
  have hhandles := perform_handles hprompt.onCancel task
  generalize w.perform task = w', w.deeds task = ds at hhandles hkept
  cases hhandles with
  | leave hquiet =>
    exact (perform_tacit hsubscriptions hquiet (fun c hc => hkept ⟨c, hc⟩) hdrop).held c hc
  | _ => exact hc

theorem cell?_putCell_ne_none {cell : Cell} {c' : CellId} (hcell : w.cell? c ≠ none) :
    (w.putCell c' cell).cell? c ≠ none := by
  rw [cell?, putCell, lookup_insert]
  split
  · exact Option.some_ne_none _
  · exact hcell

/-- Cells stay until the workspace is swept. -/
theorem cell?_perform_ne_none (hsubscriptions : w.subscriptions = #[]) (hprompt : w.backend.Prompt)
    (hcell : w.cell? c ≠ none) : (w.perform task).cell? c ≠ none := by
  by_cases hdrop : ∃ c', task = .operate (.dropCell c')
  · obtain ⟨c', rfl⟩ := hdrop
    exact hcell
  by_cases hkept : ∃ c', .invalidated c' ∈ w.deeds task
  · obtain ⟨c', hc'⟩ := hkept
    obtain ⟨cell, new, more, -, heq, -⟩ := perform_of_invalidated hc'
    rw [heq]
    exact cell?_putCell_ne_none hcell
  have hhandles := perform_handles hprompt.onCancel task
  generalize w.perform task = w', w.deeds task = ds at hhandles hkept
  cases hhandles with
  | leave hquiet =>
    exact (perform_tacit hsubscriptions hquiet (fun c hc => hkept ⟨c, hc⟩)
      fun c heq => hdrop ⟨c, heq⟩).present hcell
  | send => exact cell?_putCell_ne_none hcell
  | take => exact cell?_putCell_ne_none hcell
  | cancel | withdraw | ignore => exact hcell

/-- After a task the client refers to every cell, unless the task was to let go of it. -/
theorem held_perform (hsubscriptions : w.subscriptions = #[]) (hprompt : w.backend.Prompt)
    (hheld : ∀ {c : CellId}, w.cell? c ≠ none → c ∈ w.heldCells)
    (hcell : (w.perform task).cell? c ≠ none) (hdrop : task ≠ .operate (.dropCell c)) :
    c ∈ (w.perform task).heldCells := by
  by_cases hmakes : w.Makes c task
  · obtain ⟨rfl, position, expression, scope, automatic, rfl⟩ := hmakes
    have hnew := w.heldCells_newCell position expression scope automatic
    exact hnew ▸ List.mem_append_right _ List.mem_cons_self
  have hbefore : c ∈ w.heldCells := hheld ((perform_turn hmakes).numbered.2 hcell)
  by_cases hother : ∃ c', task = .operate (.dropCell c')
  · obtain ⟨c', rfl⟩ := hother
    refine List.mem_filter.mpr ⟨hbefore, ?_⟩
    simpa using fun heq : c = c' => hdrop (heq ▸ rfl)
  · exact mem_heldCells_perform hsubscriptions hprompt (fun c' heq => hother ⟨c', heq⟩) hbefore

theorem attuned_root : ({ backend } : Workspace).Attuned [] where
  silent {s id l} hl := by
    cases hs : ScopeTree.root.get? s with
    | none => simp [ScopeTree.definitionListeners, hs] at hl
    | some scope =>
      obtain ⟨-, rfl⟩ := get?_root_eq_some hs
      simp [ScopeTree.definitionListeners, hs] at hl
  numbered {p r c name} hl := by
    cases hp : ScopeTree.root.get? p with
    | none => simp [ScopeTree.listeners, hp] at hl
    | some scope =>
      obtain ⟨-, rfl⟩ := get?_root_eq_some hp
      simp [ScopeTree.listeners, hp] at hl
  current _ hcell := by simp [cell?] at hcell

namespace Secluded

theorem closed (h : w.Secluded) : w.Closed := ⟨h.subscriptions, h.prompt.answering⟩

theorem start (hprompt : backend.Prompt) : ({ backend } : Workspace).Secluded where
  ready := Reached.start.ready
  subscriptions := rfl
  prompt := hprompt
  numbered hcell := by simp [cell?] at hcell
  operations op hop := by simp at hop
  held hcell := by simp [cell?] at hcell
  attuned := attuned_root
  clearing c := clearing_of_none rfl
  batched c := .of_countP rfl fun cell hcell => by simp [cell?] at hcell

theorem call (h : w.Secluded) (hquiet : w.agenda = []) {op : Op} (hop : ¬op.Subscribes) :
    (w.call op).Secluded where
  ready := h.ready.call hquiet op
  subscriptions := h.subscriptions
  prompt := h.prompt
  numbered := h.numbered
  operations op' hmem := by
    obtain rfl : op' = op := by simpa [Workspace.call] using hmem
    exact .inr ⟨hop, rfl⟩
  held := h.held
  attuned := h.attuned.call hquiet op
  clearing c := .call w c op
  batched c := (h.batched c).call hquiet op

/-- An operation that is next was called from outside, or answers a command. -/
theorem answers_or_quiet (h : w.Secluded) (hagenda : w.agenda = task :: rest) {op : Op}
    (htask : task = .operate op) : ¬op.Subscribes ∧ (op.Answers ∨ rest = []) := by
  subst htask
  rcases h.operations op (by rw [hagenda]; exact List.mem_cons_self) with
    ⟨id, answer, rfl, -⟩ | ⟨hop, heq⟩
  · exact ⟨not_false, .inl trivial⟩
  · rw [hagenda] at heq
    exact ⟨hop, .inr (List.cons.inj heq).2⟩

/-- No cell begins a run during a refresh of it. -/
theorem reenters_eq_false (h : w.Secluded) : w.reenters = false := by
  unfold reenters
  split
  · rfl
  · rename_i task rest hagenda
    exact Clearing.reentry_eq_false fun c => hagenda ▸ h.clearing c

/-- Every step keeps the workspace to itself. -/
theorem step (h : w.Secluded) (hagenda : w.agenda = task :: rest) :
    (({ w with agenda := rest } : Workspace).perform task).sweep.Secluded := by
  have hop : ∀ op, task = .operate op → op.Answers ∨ rest = [] :=
    fun op heq => (h.answers_or_quiet hagenda heq).2
  have hcalm : ∀ op, task = .operate op → op.enlists = false ∨ rest = [] :=
    fun op heq => (hop op heq).imp_left Op.Answers.enlists
  let v : Workspace := { w with agenda := rest }
  have hclosed : v.Closed := ⟨h.subscriptions, h.prompt.answering⟩
  have hready : (v.perform task).Ready := h.ready.perform hagenda
  have hresponds := perform_responds hclosed fun op heq => (h.answers_or_quiet hagenda heq).1
  have hnumbered : ∀ {c cell}, (v.perform task).cell? c = some cell →
      c < (v.perform task).nextCell := perform_numbered (w := v) h.numbered task
  have hattuned : v.Attuned (task :: v.agenda) := by
    have hbefore := h.attuned
    rw [hagenda] at hbefore
    exact ⟨hbefore.silent, hbefore.numbered, hbefore.current⟩
  have hclearing : ∀ c, v.Clearing c (task :: v.agenda) := fun c =>
    hagenda ▸ (h.clearing c).fade ⟨.refl w.tree, fun hcell => ⟨_, hcell, fun _ => rfl⟩⟩
  have hbatched : ∀ c, v.Batched c (task :: v.agenda) := by
    intro c
    have hbefore := h.batched c
    rw [hagenda] at hbefore
    exact ⟨hbefore.once, hbefore.outermost, hbefore.suspended⟩
  have hconsistent : v.tree.Consistent := h.ready.tied.allConsistent
  have hprompt : (v.perform task).sweep.backend.Prompt := by
    rw [hresponds.sweep.backend]
    exact h.prompt
  obtain ⟨hle, tasks, htasks, hnew⟩ :=
    v.perform_operations h.subscriptions h.prompt task
  refine ⟨hready.swept (swept_sweep hready.tied) hready.tied,
    hresponds.sweep.subscriptions.trans h.subscriptions, hprompt, sweep_numbered hnumbered, fun op hmem => ?_,
    fun {c} hcell => ?_, (hattuned.perform h.numbered hcalm).sweep,
    fun c => ((hclearing c).perform hconsistent h.subscriptions h.prompt.onCancel hattuned).sweep,
    fun c => ((hbatched c).perform hcalm).sweep⟩
  · obtain ⟨cells, tree, hsweep, -⟩ := (v.perform task).exists_sweep_eq
    rw [hsweep] at hmem ⊢
    have hmem' : .operate op ∈ tasks ++ rest := htasks ▸ hmem
    refine .inl ((List.mem_append.mp hmem').elim (fun hin => ?_) fun hin => ?_)
    · obtain ⟨⟨answer, heq⟩, hlt⟩ := hnew op hin
      exact ⟨_, answer, heq, hlt⟩
    · have hbefore := h.operations op (by rw [hagenda]; exact List.mem_cons_of_mem _ hin)
      rcases hbefore with ⟨id, answer, heq, hlt⟩ | ⟨-, heq⟩
      · exact ⟨id, answer, heq, hlt.trans_le hle⟩
      · rw [hagenda] at heq
        rw [(List.cons.inj heq).2] at hin
        cases hin
  · obtain ⟨cell', hcell'⟩ := Option.ne_none_iff_exists'.mp hcell
    have hrefers : (v.perform task).refersToCell c = true := refersToCell_of_sweep hcell'
    obtain ⟨cells, tree, hsweep, hcells⟩ := (v.perform task).exists_sweep_eq
    have hfound : (v.perform task).cell? c = some cell' := by
      refine hcells (?_ : ({ v.perform task with cells, tree } : Workspace).cell? c = some cell')
      exact hsweep ▸ hcell'
    have hheld : c ∈ (v.perform task).heldCells := by
      by_cases hdrop : task = .operate (.dropCell c)
      · subst hdrop
        have hquiet : rest = [] := (hop _ rfl).resolve_left not_false
        have hnone : (v.perform (.operate (.dropCell c))).agenda = [] := hquiet
        rw [refersToCell, hnone] at hrefers
        simpa using hrefers
      · exact held_perform h.subscriptions h.prompt (fun hcell => h.held hcell)
          (by rw [hfound]; rintro ⟨⟩) hdrop
    exact hsweep ▸ hheld

end Secluded

/-- A chronicle is kept of a workspace that is to itself, by a run in which no cell begins a run
during a refresh of it. -/
theorem Chronicle.exists_run (h : Chronicle backend may deeds w) (hprompt : backend.Prompt) :
    w.Secluded ∧ w.backend = backend ∧
      ∃ past, Run (fun w => w.reenters = false) { backend } past w := by
  induction h with
  | start => exact ⟨.start hprompt, rfl, [], .refl⟩
  | call op _ hquiet hop _ ih =>
    obtain ⟨hsecluded, hbackend, past, hrun⟩ := ih
    exact ⟨hsecluded.call hquiet hop, hbackend, _, hrun.call op hquiet⟩
  | @step deeds w task rest _ hagenda ih =>
    obtain ⟨hsecluded, hbackend, past, hrun⟩ := ih
    have hclosed : ({ w with agenda := rest } : Workspace).Closed :=
      ⟨hsecluded.subscriptions, hsecluded.prompt.answering⟩
    have hresponds := (perform_responds hclosed fun op heq =>
      (hsecluded.answers_or_quiet hagenda heq).1).sweep
    refine ⟨?_, ?_, past, hrun.step hsecluded.reenters_eq_false⟩
    · rw [step_of_agenda hagenda]
      exact hsecluded.step hagenda
    · rw [step_of_agenda hagenda]
      exact hresponds.backend.trans hbackend

/-- The chronicle goes on while the workspace settles. -/
theorem Chronicle.settle (h : Chronicle backend may deeds w) (n : Nat) :
    Chronicle backend may (deeds ++ w.coming n) (w.settle n) := by
  induction n generalizing deeds w with
  | zero => simpa [coming, Workspace.settle] using h
  | succ n ih =>
    cases hagenda : w.agenda with
    | nil => simpa [coming, Workspace.settle, hagenda] using h
    | cons task rest =>
      rw [settle_succ hagenda, coming, hagenda, ← List.append_assoc]
      exact ih (h.step hagenda)

end Workspace

end MathCanvas
