import MathCanvas.Proofs.Workspace.Chronicle
import MathCanvas.Proofs.Workspace.Fates
import MathCanvas.Proofs.Workspace.Outstanding
import MathCanvas.Proofs.Workspace.Status

/-!
# The life of a command

In a chronicle every command has a fate (`Workspace.Chronicle.exists_fate`), and the workspace is as
the fate says (`Workspace.Fits`): its cell waits for it, or is going to be invalidated, or has just
been, or the command is over. `Workspace.Ignores` says of a task that it leaves all this alone. The
others are those that send, answer or cancel the command, and those that invalidate its cell.
-/

namespace MathCanvas

/-- Whether a task answers a command. -/
def Task.replies (id : CommandId) : Task → Bool
  | .operate (.answer (some id') _) => id' == id
  | _ => false

theorem Plain.any_replies {tasks : List Task} (h : Plain tasks) (id : CommandId) :
    tasks.any (Task.replies id) = false := by
  rw [List.any_eq_false]
  intro task htask
  have hplain := h task htask
  cases task with
  | operate op => cases hplain
  | _ => simp [Task.replies]

namespace Workspace

variable {w w' : Workspace} {id id' : CommandId} {f : Fate} {task : Task} {agenda tasks rest : List Task}
  {c : CellId} {cell cell' : Cell} {leg : Leg} {p : Bool} {backend : Backend}
  {may : Workspace → Op → Prop} {deeds : List Deed} {op : Op} {generation : Nat}

/-! ### What a fate says about the workspace -/

/-- A command of a cell can be answered, or was withdrawn. -/
def Pends (w : Workspace) (id : CommandId) (c : CellId) (pending : Bool) : Prop :=
  (w.commands.find? id).map (·.cell) = (if pending then some c else none) ∧
    (pending = false → w.backend.channel = .direct)

/-- What holds at a fate of a command. -/
def Upholds (w : Workspace) (id : CommandId) (agenda : List Task) : Fate → Prop
  | .unsent => w.commands.find? id = none
  | .waiting c leg pending => w.Pends id c pending ∧ c < w.nextCell ∧
    (∀ cell, w.cell? c = some cell → cell.errand = some (id, leg)) ∧
    -- answers that the backend gives at once come before anything else
    (pending = true → (agenda.dropWhile (Task.replies id)).any (Task.replies id) = false)
  | .doomed c pending => w.Pends id c pending ∧ c ∈ w.heldCells ∧
    (∃ cell, w.cell? c = some cell ∧ cell.active = some id) ∧ w.Owes c agenda ∧
    (pending = true → agenda.any (Task.replies id) = false)
  | .due c pending => w.Pends id c pending ∧ ∃ rest, agenda = .cancel id :: rest ∧ .cancel id ∉ rest
  | .past _ => w.backend.keepsCancelled = false → w.commands.find? id = none

/-- The workspace is as the fate of a command says. -/
structure Fits (w : Workspace) (id : CommandId) (agenda : List Task) (f : Fate) : Prop where
  unsent : f = .unsent ↔ w.nextCommand ≤ id
  /-- No other cell waits for the command. -/
  cell : ∀ {c : CellId} {cell : Cell}, w.cell? c = some cell → cell.active = some id →
    f.cell? = some c
  cancel : .cancel id ∈ agenda → ∃ c pending, f = .due c pending
  upholds : w.Upholds id agenda f

theorem fits_start (backend : Backend) (id : CommandId) :
    ({ backend } : Workspace).Fits id [] .unsent where
  unsent := iff_of_true rfl (Nat.zero_le _)
  cell hcell := by simp [cell?] at hcell
  cancel hmem := by cases hmem
  upholds := rfl

/-- The command is over. -/
theorem Fits.past {ended : Bool} (h : w.Fits id agenda f) (hsent : f ≠ .unsent)
    (hnext : w'.nextCommand = w.nextCommand)
    (hactive : ∀ c cell, w'.cell? c = some cell → cell.active ≠ some id)
    (hcancel : .cancel id ∉ w'.agenda)
    (hpending : w'.backend.keepsCancelled = false → w'.commands.find? id = none) :
    w'.Fits id w'.agenda (.past ended) where
  unsent := iff_of_false (by simp) fun hle => hsent (h.unsent.mpr (hnext ▸ hle))
  cell hcell hid := absurd hid (hactive _ _ hcell)
  cancel hmem := absurd hmem hcancel
  upholds := hpending

/-! ### Tasks that have nothing to do with a command -/

/-- A task has nothing to do with a command. -/
structure Ignores (w : Workspace) (id : CommandId) (task : Task) (w' : Workspace) : Prop where
  next : w'.nextCommand ≤ id ↔ w.nextCommand ≤ id
  pending : w'.commands.find? id = w.commands.find? id
  backend : w'.backend = w.backend
  nextCell : w.nextCell ≤ w'.nextCell
  agenda : ∃ tasks, w'.agenda = tasks ++ w.agenda ∧ .cancel id ∉ tasks ∧
    tasks.any (Task.replies id) = false ∧
    (task.replies id = true → (∃ c, w.Pends id c true) → tasks = [])
  cell : ∀ {c : CellId} {cell' : Cell}, w'.cell? c = some cell' →
    (∃ cell, w.cell? c = some cell ∧ cell'.errand = cell.errand) ∨ cell'.active ≠ some id ∧
      (∀ cell, w.cell? c = some cell → cell.active ≠ some id) ∧
      (w.cell? c = none → w.nextCell ≤ c)
  owing : ∀ {c : CellId} {cell : Cell}, w.cell? c = some cell → cell.active = some id →
    c ∈ w.heldCells → w.Owes c (task :: w.agenda) →
    c ∈ w'.heldCells ∧ w'.cell? c ≠ none ∧ w'.Owes c w'.agenda

theorem Pends.of_same (h : w.Pends id c p) (hpending : w'.commands.find? id = w.commands.find? id)
    (hbackend : w'.backend = w.backend) : w'.Pends id c p := by
  rw [Pends, hpending, hbackend]
  exact h

theorem active_of_errand (h : cell.errand = some (id, leg)) : cell.active = some id := by
  obtain ⟨id', hactive, heq⟩ := Option.map_eq_some_iff.mp h
  cases heq
  exact hactive

theorem active_eq_of_errand_eq (h : cell'.errand = cell.errand) : cell'.active = cell.active := by
  have hfst : ∀ cell : Cell, cell.errand.map (·.1) = cell.active := by
    intro cell
    cases hactive : cell.active <;> simp [Cell.errand, hactive]
  rw [← hfst, h, hfst]

/-- The fate of a command stays as it is. -/
theorem Fits.pass (h : w.Fits id (task :: w.agenda) f) (hi : w.Ignores id task w')
    (hdue : task ≠ .cancel id) : w'.Fits id w'.agenda f := by
  obtain ⟨tasks, hagenda, hcancel, hreplies, hanswer⟩ := hi.agenda
  refine ⟨h.unsent.trans hi.next.symm, fun {c cell'} hcell' hactive => ?_, fun hmem => ?_, ?_⟩
  · rcases hi.cell hcell' with ⟨cell, hcell, herrand⟩ | ⟨hnot, -⟩
    · exact h.cell hcell ((active_eq_of_errand_eq herrand).symm.trans hactive)
    · exact absurd hactive hnot
  · rw [hagenda] at hmem
    exact h.cancel (List.mem_cons_of_mem _ ((List.mem_append.mp hmem).resolve_left hcancel))
  have hupholds := h.upholds
  cases f with
  | unsent => exact hi.pending.trans hupholds
  | due c p =>
    obtain ⟨-, rest, heq, -⟩ := hupholds
    exact absurd (List.cons.inj heq).1 hdue
  | past ended =>
    show _ → w'.commands.find? id = none
    rw [hi.backend, hi.pending]
    exact hupholds
  | waiting c leg p =>
    obtain ⟨hpends, hc, herrand, hlate⟩ := hupholds
    refine ⟨hpends.of_same hi.pending hi.backend, hc.trans_le hi.nextCell, fun cell' hcell' => ?_,
      fun hp => ?_⟩
    · rcases hi.cell hcell' with ⟨cell, hcell, heq⟩ | ⟨-, hnot, hnew⟩
      · exact heq.trans (herrand cell hcell)
      · cases hcell : w.cell? c with
        | none => exact absurd (hnew hcell) (Nat.not_le.mpr hc)
        | some cell => exact absurd (active_of_errand (herrand cell hcell)) (hnot cell hcell)
    · have hfront := hlate hp
      rw [hagenda]
      by_cases htask : task.replies id = true
      · rw [hanswer htask ⟨c, hp ▸ hpends⟩, List.nil_append]
        rwa [List.dropWhile_cons_of_pos htask] at hfront
      · rw [List.dropWhile_cons_of_neg htask, List.any_cons, Bool.or_eq_false_iff] at hfront
        have hnone : (tasks ++ w.agenda).any (Task.replies id) = false := by
          rw [List.any_append, hreplies, hfront.2]
          rfl
        rw [List.any_eq_false] at hnone ⊢
        exact fun task' hmem => hnone task' ((List.dropWhile_sublist _).mem hmem)
  | doomed c p =>
    obtain ⟨hpends, hheld, ⟨cell, hcell, hactive⟩, howes, hlate⟩ := hupholds
    obtain ⟨hheld', hpresent, howes'⟩ := hi.owing hcell hactive hheld howes
    obtain ⟨cell', hcell'⟩ := Option.ne_none_iff_exists'.mp hpresent
    refine ⟨hpends.of_same hi.pending hi.backend, hheld', ⟨cell', hcell', ?_⟩, howes', fun hp => ?_⟩
    · rcases hi.cell hcell' with ⟨before, hbefore, heq⟩ | ⟨-, hnot, -⟩
      · cases hcell.symm.trans hbefore
        exact (active_eq_of_errand_eq heq).trans hactive
      · exact absurd hactive (hnot cell hcell)
    · have hnone := hlate hp
      rw [List.any_cons, Bool.or_eq_false_iff] at hnone
      rw [hagenda, List.any_append, hreplies, hnone.2]
      rfl

theorem eq_of_replies {answer : Answer} (hreplies : (Task.operate op).replies id = true)
    (hanswers : w.answering? op = some (id', answer)) : id' = id := by
  unfold Task.replies at hreplies
  split at hreplies
  · rename_i id'' answer' heq
    cases heq
    obtain rfl := eq_of_beq hreplies
    unfold answering? at hanswers
    simp only at hanswers
    split at hanswers
    · cases hanswers
      rfl
    · cases hanswers
  · cases hreplies

/-- Only a cell that is there is disturbed. -/
theorem exists_cell_of_disturbed (h : .disturbed c ∈ w.deeds task) :
    ∃ cell, w.cell? c = some cell := by
  rcases disturbed_mem_deeds h with ⟨name, value, rfl, hinforms⟩ | ⟨scope, rfl⟩ | ⟨cell, hcell, -⟩
  · unfold informs at hinforms
    cases hcell : w.cell? c with
    | none => simp [hcell] at hinforms
    | some cell => exact ⟨cell, rfl⟩
  · rcases w.operate_setScope c scope with ⟨hnone, -⟩ | ⟨cell, hcell, -⟩
    · rw [deeds, hnone] at h
      cases h
    · exact ⟨cell, hcell⟩
  · exact ⟨cell, cell?_of_heldCell? hcell⟩

theorem agenda_dispatch (w : Workspace) (c : CellId) (cell : Cell) (e : Expr) :
    (w.dispatch c cell e).agenda =
      (w.backend.onDispatch w.nextCommand ⟨c, w.definedInputs cell, e⟩).map .operate ++ w.agenda :=
  rfl

/-- A workspace to itself whose next task is given. The task is taken from the agenda. -/
structure Poised (w : Workspace) (task : Task) : Prop where
  subscriptions : w.subscriptions = #[]
  prompt : w.backend.Prompt
  numbered : ∀ {c : CellId} {cell : Cell}, w.cell? c = some cell → c < w.nextCell
  operations : ∀ op, .operate op ∈ task :: w.agenda →
    (∃ id answer, op = .answer (some id) answer ∧ id < w.nextCommand) ∨
      ¬op.Subscribes ∧ task :: w.agenda = [.operate op]
  held : ∀ {c : CellId}, w.cell? c ≠ none → c ∈ w.heldCells
  settled : ∀ c, w.Settled c (task :: w.agenda)
  batched : ∀ c, w.Batched c (task :: w.agenda)

theorem Secluded.poised (h : w.Secluded) (hsettled : ∀ c, w.Settled c w.agenda)
    (hagenda : w.agenda = task :: rest) : ({ w with agenda := rest } : Workspace).Poised task where
  subscriptions := h.subscriptions
  prompt := h.prompt
  numbered := h.numbered
  operations op hop := by
    have hbefore := h.operations op (hagenda ▸ hop)
    rwa [hagenda] at hbefore
  held := h.held
  settled c := (hsettled c).pop hagenda
  batched c := by
    have hbefore := h.batched c
    rw [hagenda] at hbefore
    exact ⟨hbefore.once, hbefore.outermost, hbefore.suspended⟩

namespace Poised

variable (h : w.Poised task)
include h

/-- Where only an operation that was called is next, no cell owes anything. -/
theorem not_owes (hquiet : task :: w.agenda = [.operate op]) (c : CellId) :
    ¬w.Owes c (task :: w.agenda) := by
  refine (h.batched c).not_owes fun task' hmem => ?_
  rw [hquiet] at hmem
  exact ⟨op, List.mem_singleton.mp hmem⟩

theorem agenda_of_drop {c' : CellId} (hdrop : task = .operate (.dropCell c')) :
    task :: w.agenda = [.operate (.dropCell c')] := by
  rcases h.operations (.dropCell c') (hdrop ▸ List.mem_cons_self) with ⟨_, _, heq, -⟩ | ⟨-, heq⟩
  · cases heq
  · exact heq

/-- A cell that owes an invalidation goes on to owe it, and stays. -/
theorem owing (hkept : .invalidated c ∉ w.deeds task) (hcell : w.cell? c = some cell)
    (hheld : c ∈ w.heldCells) (howes : w.Owes c (task :: w.agenda)) :
    c ∈ (w.perform task).heldCells ∧ (w.perform task).cell? c ≠ none ∧
      (w.perform task).Owes c (w.perform task).agenda := by
  have hdrop : ∀ c', task ≠ .operate (.dropCell c') :=
    fun c' heq => h.not_owes (h.agenda_of_drop heq) c howes
  have hmakes : ¬w.Makes c task := not_makes (h.numbered hcell) task
  have hpresent : (w.perform task).cell? c ≠ none := cell?_perform_ne_none h.subscriptions h.prompt
    (by rw [hcell]; exact Option.some_ne_none _)
  obtain ⟨cell', hcell'⟩ := Option.ne_none_iff_exists'.mp hpresent
  obtain ⟨-, tasks, htasks, -⟩ := perform_operations h.subscriptions h.prompt task
  exact ⟨mem_heldCells_perform h.subscriptions h.prompt hdrop hheld, hpresent,
    howes.perform hmakes ⟨tasks, htasks⟩ hkept hcell hcell'⟩

/-- An operation that is next is no subscription. -/
theorem not_subscribes : ∀ op, task = .operate op → ¬op.Subscribes := by
  rintro op rfl
  rcases h.operations op List.mem_cons_self with ⟨_, _, rfl, -⟩ | ⟨hop, -⟩
  · exact not_false
  · exact hop

theorem backend_perform : (w.perform task).backend = w.backend :=
  (perform_responds ⟨h.subscriptions, h.prompt.answering⟩ h.not_subscribes).backend

/-- Something happens to a cell that does not wait for the command. -/
theorem ignores_putCell {v : Workspace} {c₀ : CellId} {cell₀ new : Cell}
    (hperform : w.perform task = (v.putCell c₀ new).push tasks)
    (hcells : v.cells = w.cells) (hagenda : v.agenda = w.agenda) (hbackend : v.backend = w.backend)
    (hnextCell : v.nextCell = w.nextCell) (hnext : v.nextCommand ≤ id ↔ w.nextCommand ≤ id)
    (hpending : v.commands.find? id = w.commands.find? id)
    (hcell₀ : w.cell? c₀ = some cell₀) (hold : cell₀.active ≠ some id) (hnew : new.active ≠ some id)
    (hcancel : .cancel id ∉ tasks) (hreplies : tasks.any (Task.replies id) = false)
    (hanswer : task.replies id = true → ¬∃ c, w.Pends id c true)
    (hactive : ∀ c cell, .invalidated c ∈ w.deeds task → w.cell? c = some cell →
      cell.active ≠ some id) : w.Ignores id task (w.perform task) := by
  have howing := fun {c : CellId} {cell : Cell} (hcell : w.cell? c = some cell)
    (hid : cell.active = some id) => h.owing (fun hmem => hactive c cell hmem hcell hid) hcell
  rw [hperform] at howing ⊢
  refine ⟨hnext, hpending, hbackend, hnextCell.ge, ⟨tasks, ?_, hcancel, hreplies,
    fun htask hpends => absurd hpends (hanswer htask)⟩, fun {c cell'} hcell' => ?_, howing⟩
  · rw [Workspace.push, Workspace.putCell, hagenda]
  · rw [cell?, Workspace.push, Workspace.putCell, lookup_insert, hcells] at hcell'
    split at hcell'
    · rename_i hc
      subst hc
      cases hcell'
      refine .inr ⟨hnew, fun cell hcell => ?_, fun hnone => ?_⟩
      · cases hcell₀.symm.trans hcell
        exact hold
      · rw [hcell₀] at hnone
        cases hnone
    · exact .inl ⟨cell', hcell', rfl⟩

/-- The command of another cell is given up. -/
theorem ignores_invalidated {c₀ : CellId} (hkept : .invalidated c₀ ∈ w.deeds task)
    (hactive : ∀ c cell, .invalidated c ∈ w.deeds task → w.cell? c = some cell →
      cell.active ≠ some id) : w.Ignores id task (w.perform task) := by
  obtain ⟨cell₀, new, more, hcell₀, heq, hnew, hmore⟩ := perform_of_invalidated hkept
  have hother := hactive c₀ cell₀ hkept hcell₀
  have hreplies : task.replies id = false := by
    rcases invalidated_mem_deeds hkept with rfl | ⟨scope, rfl⟩ <;> rfl
  refine h.ignores_putCell heq rfl rfl rfl rfl Iff.rfl rfl hcell₀ hother (by simp [hnew]) ?_ ?_
    (by simp [hreplies]) hactive
  · rw [List.mem_append, not_or]
    refine ⟨fun hmem => ?_, hmore.cancel_not_mem id⟩
    obtain ⟨id', hid', hsame⟩ := List.mem_map.mp hmem
    cases hsame
    exact hother (Option.mem_toList.mp hid')
  · rw [List.any_append, Bool.or_eq_false_iff]
    exact ⟨by simp [cancelTasks, Task.replies], hmore.any_replies id⟩

/-- A task that leaves all commands alone and invalidates no cell. -/
theorem ignores_leave (hquiet : ∀ deed ∈ w.deeds task, deed.command? = none)
    (hkept : ∀ c, .invalidated c ∉ w.deeds task) : w.Ignores id task (w.perform task) := by
  have howing := fun {c : CellId} {cell : Cell} (hcell : w.cell? c = some cell)
    (_ : cell.active = some id) => h.owing (hkept c) hcell
  by_cases hdrop : ∃ c', task = .operate (.dropCell c')
  · obtain ⟨c', rfl⟩ := hdrop
    exact ⟨Iff.rfl, rfl, rfl, Nat.le_refl _, ⟨[], rfl, by simp, rfl, fun _ _ => rfl⟩,
      fun hcell' => .inl ⟨_, hcell', rfl⟩, howing⟩
  have htacit := perform_tacit h.subscriptions hquiet hkept fun c' heq => hdrop ⟨c', heq⟩
  obtain ⟨tasks, hagenda, htasks⟩ := htacit.agenda
  refine ⟨by rw [htacit.nextCommand], htacit.pending id, h.backend_perform,
    nextCell_le_perform w task, ⟨tasks, hagenda, htasks.cancel_not_mem id, htasks.any_replies id, ?_⟩,
    fun {c cell'} hcell' => ?_, howing⟩
  · intro hreplies _
    cases task with
    | operate op =>
      have hop : op.Replies := by
        cases op with
        | answer => trivial
        | _ => cases hreplies
      have hsame : w.perform (.operate op) = w := operate_of_not_pending hop hquiet
      rw [hsame] at hagenda
      exact List.append_left_eq_self.mp hagenda.symm
    | _ => cases hreplies
  · by_cases hmakes : w.Makes c task
    · obtain ⟨rfl, position, expression, scope, automatic, rfl⟩ := hmakes
      obtain ⟨-, -, -, made, -, hmade, hactive, -⟩ :=
        w.operate_newCell position expression scope automatic
      cases hmade.symm.trans hcell'
      refine .inr ⟨by simp [hactive], fun cell hcell => ?_, fun _ => Nat.le_refl _⟩
      exact absurd (h.numbered hcell) (Nat.lt_irrefl _)
    · exact .inl (errand_perform (h.settled c).inOrder hmakes hquiet (hkept c) hcell')

/-- A task none of whose deeds is about a command, and that does not invalidate its cell, has nothing
to do with it. -/
theorem ignores (habout : ∀ deed ∈ w.deeds task, deed.command? ≠ some id)
    (hactive : ∀ c cell, .invalidated c ∈ w.deeds task → w.cell? c = some cell →
      cell.active ≠ some id) : w.Ignores id task (w.perform task) := by
  by_cases hkept : ∃ c, .invalidated c ∈ w.deeds task
  · obtain ⟨c, hc⟩ := hkept
    exact h.ignores_invalidated hc hactive
  have howing := fun {c : CellId} {cell : Cell} (hcell : w.cell? c = some cell)
    (_ : cell.active = some id) => h.owing (fun hmem => hkept ⟨c, hmem⟩) hcell
  have hhandles := perform_handles h.prompt.onCancel task
  have hactive' : ∀ c cell, .invalidated c ∈ w.deeds task → w.cell? c = some cell →
      cell.active ≠ some id := fun c _ hmem => absurd ⟨c, hmem⟩ hkept
  generalize hw' : w.perform task = w', hds : w.deeds task = ds at hhandles habout
  cases hhandles with
  | leave hquiet => exact h.ignores_leave hquiet fun c hc => hkept ⟨c, hc⟩
  | @send c₀ cell₀ e hcell₀ hrequest =>
    have hne : w.nextCommand ≠ id := fun heq => habout _ List.mem_cons_self (congrArg some heq)
    have hnone : cell₀.active = none := ((h.settled c₀).inOrder cell₀ hcell₀).vacant_of_advance.2
    have hops : ∀ op ∈ w.backend.onDispatch w.nextCommand ⟨c₀, w.definedInputs cell₀, e⟩,
        ∃ answer, op = .answer (some w.nextCommand) answer := h.prompt.onDispatch _ _
    let command : Command := ⟨c₀, w.definedInputs cell₀, e⟩
    let v : Workspace := { w with
      nextCommand := w.nextCommand + 1
      commands := w.commands.dispatch w.nextCommand command
      history := w.history ++ [.dispatched w.nextCommand command] }
    let new : Cell := { cell₀ with active := some w.nextCommand, status := .evaluating }
    have hperform : w.perform (.cell c₀ (.advance cell₀.generation)) =
        (v.putCell c₀ new).push ((w.backend.onDispatch w.nextCommand command).map .operate) := hw'
    refine hw' ▸ h.ignores_putCell hperform rfl rfl rfl rfl ?_ ?_ hcell₀ (by simp [hnone])
      (by simpa [new] using hne) (by simp) ?_ (by simp [Task.replies]) hactive'
    · exact Nat.succ_le_iff.trans ⟨Nat.le_of_lt, fun hle => Nat.lt_of_le_of_ne hle hne⟩
    · exact (DispatchQueue.find?_dispatch ..).trans (if_neg hne.symm)
    · rw [List.any_map, List.any_eq_false]
      intro op hop
      obtain ⟨answer, rfl⟩ := hops op hop
      simpa [Task.replies] using hne
  | @cancel id' commands htaken =>
    have hne : id ≠ id' := fun heq => habout _ List.mem_cons_self (congrArg some heq.symm)
    rw [hw'] at howing
    refine ⟨Iff.rfl, ?_, rfl, Nat.le_refl _, ⟨[], rfl, by simp, rfl, fun _ _ => rfl⟩,
      fun hcell' => .inl ⟨_, hcell', rfl⟩, howing⟩
    rcases htaken with rfl | ⟨rfl, -⟩
    · exact (DispatchQueue.find?_cancel ..).trans (if_neg hne)
    · rfl
  | @withdraw op id' answer command _ answers pending
  | @ignore op id' answer command answers pending unwanted =>
    have hne : id ≠ id' := fun heq => habout _ List.mem_cons_self (congrArg some heq.symm)
    rw [hw'] at howing
    exact ⟨Iff.rfl, (DispatchQueue.find?_cancel ..).trans (if_neg hne), rfl, Nat.le_refl _,
      ⟨[], rfl, by simp, rfl, fun _ _ => rfl⟩, fun hcell' => .inl ⟨_, hcell', rfl⟩, howing⟩
  | @take op id' answer command cell₀ new tasks deed answers pending present active deed_eq freed
      tasks_eq =>
    have hne : id ≠ id' := by
      rintro rfl
      rcases deed_eq with rfl | rfl <;> exact habout _ List.mem_cons_self rfl
    have hplain : Plain tasks := by
      intro task htask
      rcases tasks_eq task htask with ⟨_, _, _, rfl⟩ | ⟨_, rfl⟩ | rfl <;> rfl
    exact hw' ▸ h.ignores_putCell (v := { w with commands := w.commands.cancel id' })
      hw' rfl rfl rfl rfl Iff.rfl ((DispatchQueue.find?_cancel ..).trans (if_neg hne)) present
      (by simpa [active] using hne.symm) (by simp [freed]) (hplain.cancel_not_mem id)
      (hplain.any_replies id) (fun hreplies _ => hne (eq_of_replies hreplies answers).symm) hactive'

/-! ### A task and the fate of a command -/

/-- What an answer is about is not on its way to be invalidated. -/
theorem not_doomed {answer : Answer} {command : Command} (hf : w.Fits id (.operate op :: w.agenda) f)
    (htask : task = .operate op) (hanswers : w.answering? op = some (id, answer))
    (hpending : w.commands.find? id = some command) : f ≠ .doomed c p := by
  subst htask
  rintro rfl
  obtain ⟨⟨hfind, -⟩, -, -, howes, hlate⟩ := hf.upholds
  obtain rfl : p = true := by
    cases p with
    | true => rfl
    | false => simp [hpending] at hfind
  rcases h.operations op List.mem_cons_self with ⟨id', answer', rfl, -⟩ | ⟨-, hquiet⟩
  · have hnone := hlate rfl
    rw [List.any_cons, Bool.or_eq_false_iff] at hnone
    unfold answering? at hanswers
    simp only at hanswers
    split at hanswers
    · cases hanswers
      simp [Task.replies] at hnone
    · cases hanswers
  · exact h.not_owes hquiet c howes

/-- The cell that waits for the command is going to be invalidated. -/
theorem fits_doomed (hf : w.Fits id (task :: w.agenda) (.waiting c leg p))
    (hignores : w.Ignores id task (w.perform task))
    (hpass : (w.perform task).Fits id (w.perform task).agenda (.waiting c leg p))
    (hdisturbed : .disturbed c ∈ w.deeds task) (hkept : .invalidated c ∉ w.deeds task) :
    (w.perform task).Fits id (w.perform task).agenda (.doomed c p) := by
  obtain ⟨-, -, herrand, hlate⟩ := hf.upholds
  obtain ⟨hpends', -, herrand', -⟩ := hpass.upholds
  obtain ⟨cell, hcell⟩ := exists_cell_of_disturbed hdisturbed
  have hdrop : ∀ c', task ≠ .operate (.dropCell c') := by
    rintro c' rfl
    simp [deeds, opDeeds, answering?] at hdisturbed
  have hheld : c ∈ w.heldCells := h.held (by rw [hcell]; exact Option.some_ne_none _)
  have hpresent : (w.perform task).cell? c ≠ none :=
    cell?_perform_ne_none h.subscriptions h.prompt (by rw [hcell]; exact Option.some_ne_none _)
  obtain ⟨cell', hcell'⟩ := Option.ne_none_iff_exists'.mp hpresent
  have hreplies : task.replies id = false := by
    cases task with
    | operate op =>
      cases op with
      | answer command answer =>
        have hop : (Op.answer command answer).Replies := trivial
        exact absurd rfl (command?_of_replies hop hdisturbed)
      | _ => rfl
    | _ => rfl
  have hagenda : p = true → (w.perform task).agenda.any (Task.replies id) = false := by
    intro hp
    obtain ⟨tasks, htasks, -, hnone, -⟩ := hignores.agenda
    have hlater := hlate hp
    rw [List.dropWhile_cons_of_neg (by simp [hreplies]), List.any_cons, hreplies,
      Bool.false_or] at hlater
    rw [htasks, List.any_append, hlater, Bool.or_false]
    exact hnone
  exact {
    unsent := iff_of_false (by simp) fun hle => by simpa using hpass.unsent.mpr hle
    cell := fun hcell hactive => hpass.cell hcell hactive
    cancel := fun hmem => by simpa using hpass.cancel hmem
    upholds := ⟨hpends', mem_heldCells_perform h.subscriptions h.prompt hdrop hheld,
      ⟨cell', hcell', active_of_errand (herrand' cell' hcell')⟩, owes_of_disturbed hdisturbed hkept,
      hagenda⟩ }

/-- A task that has nothing to do with the command, except that it may disturb its cell. -/
theorem goes_on_of_ignores (hf : w.Fits id (task :: w.agenda) f)
    (habout : ∀ deed ∈ w.deeds task, deed.command? ≠ some id)
    (hactive : ∀ c cell, .invalidated c ∈ w.deeds task → w.cell? c = some cell →
      cell.active ≠ some id) :
    ∃ f', Deed.fateFrom id f (w.deeds task) = some f' ∧
      (w.perform task).Fits id (w.perform task).agenda f' := by
  have hignores := h.ignores habout hactive
  have hcancel : task ≠ .cancel id := by
    rintro rfl
    exact habout _ List.mem_cons_self rfl
  have hpass := hf.pass hignores hcancel
  have hdue : ∀ c p, f ≠ .due c p := by
    rintro c p rfl
    obtain ⟨-, rest, heq, -⟩ := hf.upholds
    exact hcancel (List.cons.inj heq).1
  have hkept : ∀ c, f.cell? = some c → .invalidated c ∉ w.deeds task := by
    intro c hc hmem
    obtain ⟨cell, -, -, hcell, -⟩ := perform_of_invalidated hmem
    refine hactive c cell hmem hcell ?_
    cases f with
    | waiting c' leg p =>
      cases hc
      exact active_of_errand (hf.upholds.2.2.1 cell hcell)
    | doomed c' p =>
      cases hc
      obtain ⟨-, -, ⟨cell', hcell', hid⟩, -⟩ := hf.upholds
      exact Option.some.inj (hcell'.symm.trans hcell) ▸ hid
    | _ => cases hc
  refine ⟨_, Deed.fateFrom_of_not_about habout hkept hdue, ?_⟩
  cases f with
  | waiting c leg p =>
    rw [Fate.disturbedBy]
    split
    · rename_i hdisturbed
      exact h.fits_doomed hf hignores hpass hdisturbed (hkept c rfl)
    · exact hpass
  | _ => exact hpass

/-- The cell of the command is invalidated. -/
theorem goes_on_of_invalidated (hf : w.Fits id (task :: w.agenda) f)
    (hkept : .invalidated c ∈ w.deeds task) (hcell : w.cell? c = some cell)
    (hactive : cell.active = some id) :
    ∃ f', Deed.fateFrom id f (w.deeds task) = some f' ∧
      (w.perform task).Fits id (w.perform task).agenda f' := by
  obtain ⟨cell₀, new, more, hcell₀, hperform, hnew, hmore⟩ := perform_of_invalidated hkept
  obtain rfl : cell₀ = cell := Option.some.inj (hcell₀.symm.trans hcell)
  have hc : f.cell? = some c := hf.cell hcell hactive
  have hdeeds : w.deeds task = [.invalidated c] ∨ w.deeds task = [.disturbed c, .invalidated c] := by
    rcases invalidated_mem_deeds hkept with rfl | ⟨scope, rfl⟩
    · exact .inl (by simp [deeds, hcell])
    · rcases w.operate_setScope c scope with ⟨hnone, -⟩ | ⟨-, -, hdeeds, -⟩
      · rw [deeds, hnone] at hkept
        cases hkept
      · exact .inr hdeeds
  have hfits : ∀ p, w.Pends id c p → (∀ c p, f ≠ .due c p) → f ≠ .unsent →
      (w.perform task).Fits id (w.perform task).agenda (.due c p) := by
    intro p hpends hdue hsent
    have hagenda : .cancel id ∉ more ++ w.agenda := by
      rw [List.mem_append, not_or]
      refine ⟨hmore.cancel_not_mem id, fun hmem => ?_⟩
      obtain ⟨c', p', hcp⟩ := hf.cancel (List.mem_cons_of_mem _ hmem)
      exact hdue c' p' hcp
    rw [hperform]
    refine ⟨iff_of_false (by simp) fun hle => hsent (hf.unsent.mpr hle), fun {c' cell'} hcell' hid => ?_,
      fun _ => ⟨c, p, rfl⟩, hpends, more ++ w.agenda, ?_, hagenda⟩
    · rw [cell?, Workspace.push, Workspace.putCell, lookup_insert] at hcell'
      split at hcell'
      · cases hcell'
        rw [hnew] at hid
        cases hid
      · rename_i hne
        exact absurd (Option.some.inj (hc.symm.trans (hf.cell hcell' hid))) hne
    · rw [hactive]
      rfl
  have hupholds := hf.upholds
  cases f with
  | waiting c' leg p =>
    cases hc
    refine ⟨.due c p, ?_, hfits p hupholds.1 (by simp) (by simp)⟩
    rcases hdeeds with hdeeds | hdeeds <;> simp [hdeeds, Deed.fateFrom, Deed.next, Deed.passes,
      Deed.command?]
  | doomed c' p =>
    cases hc
    refine ⟨.due c p, ?_, hfits p hupholds.1 (by simp) (by simp)⟩
    rcases hdeeds with hdeeds | hdeeds <;> simp [hdeeds, Deed.fateFrom, Deed.next, Deed.passes,
      Deed.command?]
  | _ => cases hc

/-- The command is sent. -/
theorem fits_sent {c₀ : CellId} {cell₀ : Cell} {e : Expr}
    (hf : w.Fits w.nextCommand (.cell c₀ (.advance generation) :: w.agenda) .unsent)
    (htask : task = .cell c₀ (.advance generation)) (hcell₀ : w.cell? c₀ = some cell₀) :
    (w.dispatch c₀ cell₀ e).Fits w.nextCommand (w.dispatch c₀ cell₀ e).agenda
      (.waiting c₀ cell₀.leg true) := by
  subst htask
  have hfound : ∀ {c : CellId} {cell : Cell}, (w.dispatch c₀ cell₀ e).cell? c = some cell →
      if c₀ = c then cell = { cell₀ with active := some w.nextCommand, status := .evaluating }
      else w.cell? c = some cell := by
    intro c cell hcell
    rw [cell?, dispatch, Workspace.push, record, Workspace.putCell, lookup_insert] at hcell
    split at hcell
    · rename_i hc
      cases hcell
      rw [if_pos hc]
    · rename_i hc
      rw [if_neg hc]
      exact hcell
  have hops : ∀ op ∈ w.backend.onDispatch w.nextCommand ⟨c₀, w.definedInputs cell₀, e⟩,
      ∃ answer, op = .answer (some w.nextCommand) answer := h.prompt.onDispatch _ _
  have hnone : w.agenda.any (Task.replies w.nextCommand) = false := by
    rw [List.any_eq_false]
    intro task' hmem hreplies
    unfold Task.replies at hreplies
    split at hreplies
    · obtain rfl := eq_of_beq hreplies
      rcases h.operations _ (List.mem_cons_of_mem _ hmem) with ⟨id, answer, heq, hlt⟩ | ⟨-, hquiet⟩
      · cases heq
        exact Nat.lt_irrefl _ hlt
      · cases hquiet
    · cases hreplies
  exact {
    unsent := iff_of_false (by simp) (Nat.not_succ_le_self w.nextCommand)
    cell := fun {c cell} hcell hactive => by
      have hcell := hfound hcell
      split at hcell
      · rename_i hc
        rw [hc]
        rfl
      · cases hf.cell hcell hactive
    cancel := fun hmem => by
      rcases List.mem_append.mp hmem with hmem | hmem
      · obtain ⟨op, -, heq⟩ := List.mem_map.mp hmem
        cases heq
      · obtain ⟨_, _, heq⟩ := hf.cancel (List.mem_cons_of_mem _ hmem)
        cases heq
    upholds := by
      refine ⟨⟨?_, by simp⟩, h.numbered hcell₀, fun cell hcell => ?_, fun _ => ?_⟩
      · have hfind := DispatchQueue.find?_dispatch w.commands w.nextCommand w.nextCommand
          ⟨c₀, w.definedInputs cell₀, e⟩
        rw [if_pos rfl] at hfind
        exact congrArg (Option.map (·.cell)) hfind
      · have hcell := hfound hcell
        rw [if_pos rfl] at hcell
        rw [hcell]
        rfl
      · have hall : ∀ task ∈ (w.backend.onDispatch w.nextCommand
            ⟨c₀, w.definedInputs cell₀, e⟩).map Task.operate,
            task.replies w.nextCommand = true := by
          intro task htask
          obtain ⟨op, hop, rfl⟩ := List.mem_map.mp htask
          obtain ⟨answer, rfl⟩ := hops op hop
          simp [Task.replies]
        rw [agenda_dispatch, List.dropWhile_append_of_pos hall]
        rw [List.any_eq_false] at hnone ⊢
        exact fun task' hmem => hnone task' ((List.dropWhile_sublist _).mem hmem) }

/-- A command that can be answered has a cell that waits for it, or is not forgotten. -/
theorem fate_of_answered {answer : Answer} {command : Command}
    (hf : w.Fits id (.operate op :: w.agenda) f) (htask : task = .operate op)
    (hanswers : w.answering? op = some (id, answer))
    (hpending : w.commands.find? id = some command) :
    (∃ leg, f = .waiting command.cell leg true) ∨ ∃ ended, f = .past ended := by
  have hdoomed := fun c p => h.not_doomed (c := c) (p := p) hf htask hanswers hpending
  have hupholds := hf.upholds
  cases f with
  | unsent => cases hpending.symm.trans hupholds
  | waiting c leg p =>
    obtain ⟨⟨hfind, -⟩, -⟩ := hupholds
    rw [hpending, Option.map_some] at hfind
    cases p with
    | true =>
      cases hfind
      exact .inl ⟨leg, rfl⟩
    | false => cases hfind
  | doomed c p => exact absurd rfl (hdoomed c p)
  | due c p =>
    obtain ⟨-, rest, heq, -⟩ := hupholds
    cases heq
  | past ended => exact .inr ⟨ended, rfl⟩

/-- A task that is about the command. -/
theorem goes_on_of_about (hf : w.Fits id (task :: w.agenda) f)
    (habout : ∃ deed ∈ w.deeds task, deed.command? = some id) :
    ∃ f', Deed.fateFrom id f (w.deeds task) = some f' ∧
      (w.perform task).Fits id (w.perform task).agenda f' := by
  have hhandles := perform_handles h.prompt.onCancel task
  obtain ⟨deed, hdeed, hid⟩ := habout
  generalize hw' : w.perform task = w', hds : w.deeds task = ds at hhandles hdeed
  cases hhandles with
  | leave hquiet =>
    rw [hquiet deed hdeed] at hid
    cases hid
  | @send c₀ cell₀ e hcell₀ hrequest =>
    obtain rfl := List.mem_singleton.mp hdeed
    cases hid
    obtain rfl : f = .unsent := hf.unsent.mpr (Nat.le_refl _)
    exact ⟨_, by simp [Deed.fateFrom, Deed.next, Deed.meets, Deed.command?],
      h.fits_sent hf rfl hcell₀⟩
  | @cancel id' commands htaken =>
    obtain rfl := List.mem_singleton.mp hdeed
    cases hid
    obtain ⟨c, p, rfl⟩ := hf.cancel List.mem_cons_self
    obtain ⟨-, rest, heq, hnot⟩ := hf.upholds
    refine ⟨.past true, by simp [Deed.fateFrom, Deed.next, Deed.meets, Deed.command?],
      hf.past (by simp) rfl (fun c cell hcell hactive => ?_) ?_ fun hkeeps => ?_⟩
    · cases hf.cell hcell hactive
    · exact (List.cons.inj heq).2 ▸ hnot
    · rcases htaken with rfl | ⟨-, hkept⟩
      · exact (DispatchQueue.find?_cancel ..).trans (if_pos rfl)
      · cases hkeeps.symm.trans hkept
  | @withdraw op id' answer command direct answers pending =>
    obtain rfl := List.mem_singleton.mp hdeed
    cases hid
    have hfind : (w.commands.cancel id).find? id = none :=
      (DispatchQueue.find?_cancel ..).trans (if_pos rfl)
    rcases h.fate_of_answered hf rfl answers pending with ⟨leg, rfl⟩ | ⟨ended, rfl⟩
    · obtain ⟨-, hc, herrand, -⟩ := hf.upholds
      refine ⟨.waiting command.cell leg false,
        by simp [Deed.fateFrom, Deed.next, Deed.meets, Deed.command?], ⟨?_, hf.cell, fun hmem => ?_,
          ⟨⟨?_, fun _ => direct⟩, hc, herrand, by simp⟩⟩⟩
      · exact iff_of_false (by simp) fun hle => by simpa using hf.unsent.mpr hle
      · simpa using hf.cancel (List.mem_cons_of_mem _ hmem)
      · exact congrArg (Option.map (·.cell)) hfind
    · exact ⟨.past ended, by simp [Deed.fateFrom, Deed.next, Deed.meets, Deed.command?],
        hf.past (by simp) rfl (fun c cell hcell hactive => by cases hf.cell hcell hactive)
          (fun hmem => by simpa using hf.cancel (List.mem_cons_of_mem _ hmem)) fun _ => hfind⟩
  | @ignore op id' answer command answers pending unwanted =>
    obtain rfl := List.mem_singleton.mp hdeed
    cases hid
    have hfind : (w.commands.cancel id).find? id = none :=
      (DispatchQueue.find?_cancel ..).trans (if_pos rfl)
    rcases h.fate_of_answered hf rfl answers pending with ⟨leg, rfl⟩ | ⟨ended, rfl⟩
    · refine ⟨.past false, by simp [Deed.fateFrom, Deed.next, Deed.meets, Deed.command?],
        hf.past (by simp) rfl (fun c cell hcell hactive => ?_)
          (fun hmem => by simpa using hf.cancel (List.mem_cons_of_mem _ hmem)) fun _ => hfind⟩
      cases hf.cell hcell hactive
      exact unwanted cell hcell hactive
    · exact ⟨.past ended, by simp [Deed.fateFrom, Deed.next, Deed.meets, Deed.command?],
        hf.past (by simp) rfl (fun c cell hcell hactive => by cases hf.cell hcell hactive)
          (fun hmem => by simpa using hf.cancel (List.mem_cons_of_mem _ hmem)) fun _ => hfind⟩
  | @take op id' answer command cell₀ new tasks deed' answers pending present active deed_eq freed
      tasks_eq =>
    obtain rfl := List.mem_singleton.mp hdeed
    obtain rfl : id' = id := by
      rcases deed_eq with rfl | rfl <;> exact Option.some.inj hid
    have hplain : Plain tasks := by
      intro task htask
      rcases tasks_eq task htask with ⟨_, _, _, rfl⟩ | ⟨_, rfl⟩ | rfl <;> rfl
    have hfind : (w.commands.cancel id').find? id' = none :=
      (DispatchQueue.find?_cancel ..).trans (if_pos rfl)
    rcases h.fate_of_answered hf rfl answers pending with ⟨leg, rfl⟩ | ⟨ended, rfl⟩
    · obtain ⟨-, -, herrand, -⟩ := hf.upholds
      have hleg : cell₀.leg = leg := by
        have hsame := herrand cell₀ present
        rw [Cell.errand, active, Option.map_some] at hsame
        cases hsame
        rfl
      refine ⟨.past true, ?_, hf.past (by simp) rfl (fun c cell hcell hactive => ?_)
        (fun hmem => ?_) fun _ => hfind⟩
      · rcases deed_eq with rfl | rfl <;>
          simp [Deed.fateFrom, Deed.next, Deed.meets, Deed.command?, hleg]
      · rw [cell?, Workspace.push, Workspace.putCell, lookup_insert] at hcell
        split at hcell
        · cases hcell
          rw [freed] at hactive
          cases hactive
        · rename_i hne
          exact hne (Option.some.inj (hf.cell hcell hactive))
      · rcases List.mem_append.mp hmem with hmem | hmem
        · exact hplain.cancel_not_mem id' hmem
        · simpa using hf.cancel (List.mem_cons_of_mem _ hmem)
    · cases hf.cell present active

/-- Whatever a task does, the fate of a command goes on with it. -/
theorem goes_on (hf : w.Fits id (task :: w.agenda) f) :
    ∃ f', Deed.fateFrom id f (w.deeds task) = some f' ∧
      (w.perform task).Fits id (w.perform task).agenda f' := by
  by_cases habout : ∃ deed ∈ w.deeds task, deed.command? = some id
  · exact h.goes_on_of_about hf habout
  by_cases hkept : ∃ c cell, .invalidated c ∈ w.deeds task ∧ w.cell? c = some cell ∧
      cell.active = some id
  · obtain ⟨c, cell, hmem, hcell, hactive⟩ := hkept
    exact h.goes_on_of_invalidated hf hmem hcell hactive
  · exact h.goes_on_of_ignores hf (fun deed hdeed hid => habout ⟨deed, hdeed, hid⟩)
      fun c cell hmem hcell hactive => hkept ⟨c, cell, hmem, hcell, hactive⟩

end Poised

/-! ### Chronicles -/

theorem Fits.pop (h : w.Fits id w.agenda f) (hagenda : w.agenda = task :: rest) :
    ({ w with agenda := rest } : Workspace).Fits id (task :: rest) f := by
  rw [hagenda] at h
  refine ⟨h.unsent, h.cell, h.cancel, ?_⟩
  have hupholds := h.upholds
  cases f <;> exact hupholds

theorem Fits.sweep (h : w.Fits id w.agenda f) : w.sweep.Fits id w.sweep.agenda f := by
  have howed : ∀ {c : CellId} {cell : Cell}, c ∈ w.heldCells → w.cell? c = some cell →
      w.sweep.cell? c = some cell := fun hheld hcell => cell?_sweep_of_held hheld hcell
  have hforget : ∀ {c : CellId}, w.Owes c w.agenda → c ∈ w.heldCells → w.sweep.Owes c w.agenda :=
    fun howes hheld => sweep_agenda w ▸ howes.sweep fun cell hcell => howed hheld hcell
  rw [sweep_agenda]
  obtain ⟨cells, tree, hsweep, hcells⟩ := w.exists_sweep_eq
  rw [hsweep] at howed hforget ⊢
  refine ⟨h.unsent, fun hcell hactive => h.cell (hcells hcell) hactive, h.cancel, ?_⟩
  have hupholds := h.upholds
  cases f with
  | waiting c leg p =>
    obtain ⟨hpends, hc, herrand, hlate⟩ := hupholds
    exact ⟨hpends, hc, fun cell hcell => herrand cell (hcells hcell), hlate⟩
  | doomed c p =>
    obtain ⟨hpends, hheld, ⟨cell, hcell, hactive⟩, howes, hlate⟩ := hupholds
    exact ⟨hpends, hheld, ⟨cell, howed hheld hcell, hactive⟩, hforget howes hheld, hlate⟩
  | _ => exact hupholds

/-- The client calls an operation when nothing is in progress. -/
theorem Fits.call (h : w.Fits id w.agenda f) (hquiet : w.agenda = [])
    (hbatched : ∀ c, w.Batched c w.agenda) (op : Op) :
    (w.call op).Fits id (w.call op).agenda f := by
  refine ⟨h.unsent, h.cell, fun hmem => ?_, ?_⟩
  · cases List.mem_singleton.mp hmem
  have hupholds := h.upholds
  cases f with
  | waiting c leg p =>
    obtain ⟨hpends, hc, herrand, -⟩ := hupholds
    refine ⟨hpends, hc, herrand, fun _ => ?_⟩
    show List.any (List.dropWhile _ [_]) _ = false
    by_cases hop : (Task.operate op).replies id = true
    · rw [List.dropWhile_cons_of_pos hop]
      rfl
    · rw [List.dropWhile_cons_of_neg hop, List.any_cons, List.any_nil, Bool.or_false]
      exact Bool.not_eq_true _ |>.mp hop
  | doomed c p =>
    obtain ⟨-, -, -, howes, -⟩ := hupholds
    refine absurd howes ((hbatched c).not_owes ?_)
    simp [hquiet]
  | due c p =>
    obtain ⟨-, rest, heq, -⟩ := hupholds
    rw [hquiet] at heq
    cases heq
  | _ => exact hupholds

/-- In every chronicle, every command has a fate, and the workspace is as the fate says. -/
theorem Chronicle.exists_fate (h : Chronicle backend may deeds w) (hprompt : backend.Prompt)
    (id : CommandId) : ∃ f, Deed.fate id deeds = some f ∧ w.Fits id w.agenda f := by
  induction h with
  | start => exact ⟨.unsent, rfl, fits_start backend id⟩
  | call op hbefore hquiet _ _ ih =>
    obtain ⟨f, hfate, hfits⟩ := ih
    obtain ⟨hsecluded, -⟩ := hbefore.exists_run hprompt
    exact ⟨f, hfate, hfits.call hquiet hsecluded.batched op⟩
  | @step deeds w task rest hbefore hagenda ih =>
    obtain ⟨f, hfate, hfits⟩ := ih
    obtain ⟨hsecluded, -, past, hrun⟩ := hbefore.exists_run hprompt
    have hpoised := hsecluded.poised hrun.settled hagenda
    obtain ⟨f', hnext, hfits'⟩ := hpoised.goes_on (hfits.pop hagenda)
    refine ⟨f', ?_, ?_⟩
    · rw [Deed.fate_append, hfate, Option.bind_some, hnext]
    · rw [step_of_agenda hagenda]
      exact hfits'.sweep

end Workspace

end MathCanvas
