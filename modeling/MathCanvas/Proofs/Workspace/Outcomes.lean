import MathCanvas.Proofs.Workspace.Lifecycle

/-!
# What becomes of commands

`Workspace.Accounts` says what becomes of the commands of a workspace: each comes to at most one
outcome, is cancelled when its cell gives up the run that waits for it, and is answered only as long
as that run is not out of date. The commands of a queue that are pending are those for which cells
wait, and those of cells that the client let go of while they waited (`Workspace.Stray`): such a cell
is gone, but nobody cancels its command. `Workspace.Chronicle.accounts` shows this of all chronicles.
-/

namespace MathCanvas

namespace Deed

variable {id : CommandId} {f : Fate} {deed : Deed} {deeds before between later : List Deed}
  {c : CellId} {leg : Leg} {p : Bool}

theorem fateFrom_waiting (h : fateFrom id f deeds = some (.waiting c leg p)) :
    .sent c id leg ∈ deeds ∨ ∃ p, f = .waiting c leg p := by
  induction deeds generalizing f with
  | nil =>
    cases h
    exact .inr ⟨p, rfl⟩
  | cons deed deeds ih =>
    rw [fateFrom_cons] at h
    obtain ⟨f₁, hnext, hrest⟩ := Option.bind_eq_some_iff.mp h
    rcases ih hrest with hmem | ⟨p₁, rfl⟩
    · exact .inl (List.mem_cons_of_mem _ hmem)
    · rcases next_eq_waiting hnext with ⟨-, rfl, -⟩ | ⟨p₀, rfl, -⟩
      · exact .inl List.mem_cons_self
      · exact .inr ⟨p₀, rfl⟩

/-- The cell that sent a command and has not been disturbed since waits for it. -/
theorem waiting_of_sent (h : fate id (before ++ .sent c id leg :: between) = some f)
    (hbetween : ∀ deed ∈ between,
      deed.command? ≠ some id ∧ deed ≠ .disturbed c ∧ deed ≠ .invalidated c) :
    f = .waiting c leg true := by
  have hstays := fateFrom_of_not_about (f := .waiting c leg true)
    (fun deed hdeed => (hbetween deed hdeed).1) (fun c' hc' hmem => ?_) (by simp)
  · have hdisturbed : .disturbed c ∉ between := fun hmem => (hbetween _ hmem).2.1 rfl
    rw [Fate.disturbedBy, if_neg hdisturbed] at hstays
    exact Option.some.inj ((fateFrom_of_sent h).symm.trans hstays)
  · cases hc'
    exact (hbetween _ hmem).2.2 rfl

end Deed

namespace Workspace

variable {w : Workspace} {id : CommandId} {f : Fate} {task : Task} {rest : List Task} {c : CellId}
  {leg : Leg} {backend : Backend} {may : Workspace → Op → Prop} {deeds : List Deed} {op : Op}
  {name : CommandId → String}

/-- The cell that sent a command is gone, and was neither disturbed nor answered before. -/
def Stray (deeds : List Deed) (w : Workspace) (id : CommandId) : Prop :=
  ∃ c leg before between, deeds = before ++ .sent c id leg :: between ∧ w.cell? c = none ∧
    ∀ deed ∈ between, deed.command? ≠ some id ∧ deed ≠ .disturbed c ∧ deed ≠ .invalidated c

/-- Whether the client lets go of a cell while it waits for a command. -/
def abandons (w : Workspace) : Op → Bool
  | .dropCell c => (w.cell? c).any (·.active.isSome)
  | _ => false

/-- What becomes of the commands of a workspace in which the client may call some operations. -/
structure Accounts (backend : Backend) (may : Workspace → Op → Prop) (deeds : List Deed)
    (w : Workspace) : Prop where
  /-- A command is applied, fails or is cancelled at most once altogether. -/
  ended : ∀ id, deeds.countP (Deed.ends id) ≤ 1
  /-- When a command is cancelled its cell has just been invalidated, for the first time since it was
  sent, and no answer has arrived. -/
  cancelled : ∀ {id before later}, deeds = before ++ .cancelled id :: later →
    ∃ c leg earlier between, before = earlier ++ .sent c id leg :: between ++ [.invalidated c] ∧
      ∀ deed ∈ between, deed ≠ .invalidated c ∧ deed.answers id = false
  /-- A command whose cell is disturbed before the answer arrives is cancelled. -/
  once : w.agenda = [] → ∀ {c id leg before between deed later},
    deeds = before ++ .sent c id leg :: between ++ deed :: later →
    deed = .disturbed c ∨ deed = .invalidated c → (∀ deed ∈ between, deed.answers id = false) →
    deeds.count (.cancelled id) = 1
  /-- An answer is applied to the stage at which the command was sent, and nothing happened to the
  cell in between. -/
  applied : ∀ {id leg before later}, deeds = before ++ .applied id leg :: later →
    ∃ c earlier between, before = earlier ++ .sent c id leg :: between ∧ ∀ deed ∈ between,
      deed.command? ≠ some id ∧ deed ≠ .disturbed c ∧ deed ≠ .invalidated c
  /-- Any other answer does not even change the backend, unless it takes away a command that is pending
  although no cell waits for it. -/
  others : ∀ {op rest v}, w.agenda = .operate op :: rest → v = { w with agenda := rest } →
    op.Replies →
    (∀ deed ∈ v.opDeeds op, ∀ id, (∀ leg, deed ≠ .applied id leg) ∧ deed ≠ .failed id) →
    v.perform (.operate op) = v ∨ ∃ id,
      v.perform (.operate op) = { v with commands := v.commands.cancel id } ∧
        (v.opDeeds op = [.withdrawn id] ∧ backend.channel = .direct ∨
          v.opDeeds op = [.ignored id] ∧ (backend.keepsCancelled = true ∨ Stray deeds w id))
  /-- The commands in the queue. -/
  pending : w.agenda = [] → backend.keepsCancelled = false → backend.channel ≠ .direct →
    ∀ id, w.commands.isPending id = true ↔
      (∃ c cell, w.cell? c = some cell ∧ cell.active = some id) ∨ Stray deeds w id
  /-- A client that does not let go of cells while they wait leaves no command behind. -/
  tidy : (∀ w op, may w op → w.abandons op = false) → ∀ id, ¬Stray deeds w id

/-! ### Fates when nothing is in progress -/

/-- When nothing is in progress no command is about to be cancelled. -/
theorem Fits.not_sinking (h : w.Fits id w.agenda f) (hquiet : w.agenda = [])
    (hbatched : ∀ c, w.Batched c w.agenda) : ¬Deed.Sinking c f := by
  have hupholds := h.upholds
  rintro ⟨p, rfl | rfl⟩
  · obtain ⟨-, -, -, howes, -⟩ := hupholds
    refine (hbatched c).not_owes ?_ howes
    simp [hquiet]
  · obtain ⟨-, rest, heq, -⟩ := hupholds
    rw [hquiet] at heq
    cases heq

/-- A command of a queue is pending as long as its cell waits for it. -/
theorem Fits.isPending_iff (h : w.Fits id w.agenda f) (hquiet : w.agenda = [])
    (hbatched : ∀ c, w.Batched c w.agenda) (hkeeps : w.backend.keepsCancelled = false)
    (hdirect : w.backend.channel ≠ .direct) :
    w.commands.isPending id = true ↔ ∃ c leg, f = .waiting c leg true := by
  have hsinking : ∀ c, ¬Deed.Sinking c f := fun c => h.not_sinking hquiet hbatched
  have hupholds := h.upholds
  rw [DispatchQueue.isPending]
  cases f with
  | unsent =>
    have hnone : w.commands.find? id = none := hupholds
    simp [hnone]
  | waiting c leg p =>
    obtain ⟨⟨hfind, hwithdrawn⟩, -⟩ := hupholds
    cases p with
    | false => exact absurd (hwithdrawn rfl) hdirect
    | true =>
      refine iff_of_true ?_ ⟨c, leg, rfl⟩
      obtain ⟨command, hcommand, -⟩ := Option.map_eq_some_iff.mp hfind
      rw [hcommand]
      rfl
  | doomed c p => exact absurd ⟨p, .inl rfl⟩ (hsinking c)
  | due c p => exact absurd ⟨p, .inr rfl⟩ (hsinking c)
  | past ended =>
    have hnone : w.commands.find? id = none := hupholds hkeeps
    simp [hnone]

/-! ### Cells that wait -/

/-- A cell that sends a command is there. -/
theorem exists_cell_of_sent (hcancel : ∀ id, w.backend.onCancel id = [])
    (h : .sent c id leg ∈ w.deeds task) :
    ∃ cell, w.cell? c = some cell ∧ task = .cell c (.advance cell.generation) := by
  have hhandles := perform_handles hcancel task
  generalize w.perform task = w', hds : w.deeds task = ds at hhandles h
  cases hhandles with
  | leave hquiet => cases hquiet _ h
  | send hcell =>
    cases List.mem_singleton.mp h
    exact ⟨_, hcell, rfl⟩
  | take _ _ _ _ hdeed =>
    obtain rfl := List.mem_singleton.mp h
    rcases hdeed with heq | heq <;> cases heq
  | _ => cases List.mem_singleton.mp h

/-- A cell that is there when a task has been performed is not swept away. -/
theorem Secluded.cell?_step {cell : Cell} (h : w.Secluded) (hagenda : w.agenda = task :: rest)
    (hdrop : task ≠ .operate (.dropCell c))
    (hcell : (({ w with agenda := rest } : Workspace).perform task).cell? c = some cell) :
    w.step.cell? c = some cell := by
  rw [step_of_agenda hagenda]
  exact cell?_sweep_of_held (held_perform (w := { w with agenda := rest }) h.subscriptions h.prompt
    (fun hpresent => h.held hpresent) (by rw [hcell]; rintro ⟨⟩) hdrop) hcell

/-- A cell stays, unless the client lets go of it. -/
theorem Secluded.cell?_step_ne_none (h : w.Secluded) (hagenda : w.agenda = task :: rest)
    (hdrop : task ≠ .operate (.dropCell c)) (hcell : w.cell? c ≠ none) : w.step.cell? c ≠ none := by
  have hpresent : (({ w with agenda := rest } : Workspace).perform task).cell? c ≠ none :=
    cell?_perform_ne_none (w := { w with agenda := rest }) h.subscriptions h.prompt hcell
  obtain ⟨cell, hcell'⟩ := Option.ne_none_iff_exists'.mp hpresent
  rw [h.cell?_step hagenda hdrop hcell']
  exact Option.some_ne_none _

/-- The cells that the client is about to let go of do not wait. -/
theorem Chronicle.active_of_drop (h : Chronicle backend may deeds w) (hprompt : backend.Prompt)
    (hmay : ∀ w op, may w op → w.abandons op = false) (hdrop : .operate (.dropCell c) ∈ w.agenda)
    {cell : Cell} (hcell : w.cell? c = some cell) : cell.active = none := by
  cases h with
  | start => cases hdrop
  | @call deeds w op hbefore hquiet hop hallowed =>
    cases List.mem_singleton.mp hdrop
    have hkept := hmay _ _ hallowed
    have hcell' : w.cell? c = some cell := hcell
    rw [abandons, hcell', Option.any_some] at hkept
    exact Option.isSome_eq_false_iff.mp hkept |> Option.isNone_iff_eq_none.mp
  | @step deeds w task rest hbefore hagenda =>
    -- an operation that is called is the only task, so that it cannot come second
    obtain ⟨hsecluded, -⟩ := hbefore.exists_run hprompt
    obtain ⟨hsecluded', -⟩ := (hbefore.step hagenda).exists_run hprompt
    rw [step_of_agenda hagenda, sweep_agenda] at hdrop
    obtain ⟨-, tasks, htasks, hops⟩ := perform_operations (w := { w with agenda := rest })
      hsecluded.subscriptions hsecluded.prompt task
    rw [htasks] at hdrop
    rcases List.mem_append.mp hdrop with hmem | hmem
    · obtain ⟨⟨answer, heq⟩, -⟩ := hops _ hmem
      cases heq
    · have hbefore := hsecluded.operations _ (hagenda ▸ List.mem_cons_of_mem _ hmem)
      rcases hbefore with ⟨_, _, heq, -⟩ | ⟨-, heq⟩
      · cases heq
      · rw [hagenda] at heq
        rw [(List.cons.inj heq).2] at hmem
        cases hmem

/-- If the client does not let go of cells while they wait, a cell that waits is there. -/
theorem Chronicle.cell?_of_waiting (h : Chronicle backend may deeds w) (hprompt : backend.Prompt)
    (hmay : ∀ w op, may w op → w.abandons op = false) {pending : Bool}
    (hfate : Deed.fate id deeds = some (.waiting c leg pending)) : w.cell? c ≠ none := by
  induction h generalizing pending with
  | start => cases hfate
  | call op hbefore hquiet hop hallowed ih => exact ih hfate
  | @step deeds w task rest hbefore hagenda ih =>
    obtain ⟨hsecluded, -⟩ := hbefore.exists_run hprompt
    obtain ⟨f, hf, hfits⟩ := hbefore.exists_fate hprompt id
    rw [Deed.fate_append, hf, Option.bind_some] at hfate
    rcases Deed.fateFrom_waiting hfate with hsent | ⟨p, rfl⟩
    · obtain ⟨cell, hcell, rfl⟩ :=
        exists_cell_of_sent (w := { w with agenda := rest }) hsecluded.prompt.onCancel hsent
      have hpresent : w.cell? c = some cell := hcell
      exact hsecluded.cell?_step_ne_none hagenda (by simp)
        (by rw [hpresent]; exact Option.some_ne_none _)
    · obtain ⟨cell, hcell⟩ := Option.ne_none_iff_exists'.mp (ih hf)
      refine hsecluded.cell?_step_ne_none hagenda ?_ (ih hf)
      rintro rfl
      have hnone := hbefore.active_of_drop hprompt hmay (hagenda ▸ List.mem_cons_self) hcell
      obtain ⟨-, -, herrand, -⟩ := hfits.upholds
      rw [active_of_errand (herrand cell hcell)] at hnone
      cases hnone

/-- A cell that waits for a command and is gone has left it behind. -/
theorem stray_of_fate (hfate : Deed.fate id deeds = some (.waiting c leg true))
    (hnone : w.cell? c = none) : Stray deeds w id := by
  obtain ⟨before, between, rfl, hbetween⟩ := Deed.fate_waiting hfate
  refine ⟨c, leg, before, between, rfl, hnone, fun deed hdeed => ?_⟩
  obtain ⟨hdisturbed, hinvalidated, habout⟩ := hbetween deed hdeed
  exact ⟨fun hid => Bool.noConfusion (habout hid).2, hdisturbed, hinvalidated⟩

/-- An answer that is not taken by a cell. -/
theorem Poised.answer_in_vain (h : w.Poised (.operate op))
    (hfate : ∀ id, ∃ f, Deed.fate id deeds = some f ∧ w.Fits id (.operate op :: w.agenda) f)
    (hop : op.Replies)
    (hother : ∀ deed ∈ w.opDeeds op, ∀ id, (∀ leg, deed ≠ .applied id leg) ∧ deed ≠ .failed id) :
    w.perform (.operate op) = w ∨ ∃ id,
      w.perform (.operate op) = { w with commands := w.commands.cancel id } ∧
        (w.opDeeds op = [.withdrawn id] ∧ w.backend.channel = .direct ∨
          w.opDeeds op = [.ignored id] ∧ (w.backend.keepsCancelled = true ∨ Stray deeds w id)) := by
  have hdeeds : w.deeds (.operate op) = w.opDeeds op := rfl
  have hhandles := perform_handles h.prompt.onCancel (.operate op)
  rw [hdeeds] at hhandles
  generalize hw' : w.perform (.operate op) = w', hds : w.opDeeds op = ds at hhandles hother
  cases hhandles with
  | leave hquiet => exact .inl (operate_of_not_pending hop hquiet)
  | @withdraw op id answer command direct answers pending =>
    exact .inr ⟨id, rfl, .inl ⟨rfl, direct⟩⟩
  | @ignore op id answer command answers pending unwanted =>
    refine .inr ⟨id, rfl, .inr ⟨rfl, ?_⟩⟩
    obtain ⟨f, hf, hfits⟩ := hfate id
    rcases h.fate_of_answered hfits rfl answers pending with ⟨leg, rfl⟩ | ⟨ended, rfl⟩
    · obtain ⟨-, -, herrand, -⟩ := hfits.upholds
      refine .inr (stray_of_fate hf ?_)
      cases hcell : w.cell? command.cell with
      | none => rfl
      | some cell => exact absurd (active_of_errand (herrand cell hcell)) (unwanted cell hcell)
    · refine .inl ?_
      by_contra hkeeps
      have hnone : w.commands.find? id = none := hfits.upholds (Bool.not_eq_true _ |>.mp hkeeps)
      rw [pending] at hnone
      cases hnone
  | @take op id answer command cell new tasks deed answers pending present active deed_eq =>
    obtain ⟨happlied, hfailed⟩ := hother deed List.mem_cons_self id
    exact (deed_eq.elim (happlied _) hfailed).elim

/-- In every chronicle the commands are accounted for. -/
theorem Chronicle.accounts (h : Chronicle backend may deeds w) (hprompt : backend.Prompt) :
    Accounts backend may deeds w := by
  obtain ⟨hsecluded, rfl, past, hrun⟩ := h.exists_run hprompt
  have hfate := h.exists_fate hprompt
  have hended : ∀ id, deeds.countP (Deed.ends id) ≤ 1 := by
    intro id
    obtain ⟨f, hf, -⟩ := hfate id
    rw [Deed.countP_ends hf]
    split <;> omega
  refine {
    ended := hended
    cancelled := fun {id before later} heq => ?_
    once := fun hquiet {c id leg before between deed later} heq hdeed hbetween => ?_
    applied := fun {id leg before later} heq => ?_
    others := fun {op rest v} hagenda hv hop hother => ?_
    pending := fun hquiet hkeeps hdirect id => ?_
    tidy := fun hmay id hstray => ?_ }
  · obtain ⟨f, hf, -⟩ := hfate id
    obtain ⟨f₁, f₂, hf₁, hnext⟩ := Deed.exists_next_of_mem (heq ▸ hf)
    obtain ⟨c, p, rfl⟩ := Deed.due_of_next_cancelled hnext
    obtain ⟨earlier, leg, between, rfl, hbetween⟩ := Deed.fate_due hf₁
    exact ⟨c, leg, earlier, between, rfl, hbetween⟩
  · obtain ⟨f, hf, hfits⟩ := hfate id
    have hmem : .cancelled id ∈ deeds := by
      rw [heq] at hf ⊢
      exact (Deed.cancelled_of_disturbed hf hdeed hbetween).resolve_left
        (hfits.not_sinking hquiet hsecluded.batched)
    have hle : deeds.count (.cancelled id) ≤ deeds.countP (Deed.ends id) :=
      List.countP_mono_left fun deed _ hsame => by
        obtain rfl := eq_of_beq hsame
        simp [Deed.ends]
    have hpos : 0 < deeds.count (.cancelled id) := List.count_pos_iff.mpr hmem
    have hone := hended id
    omega
  · obtain ⟨f, hf, -⟩ := hfate id
    obtain ⟨f₁, f₂, hf₁, hnext⟩ := Deed.exists_next_of_mem (heq ▸ hf)
    obtain ⟨c, rfl⟩ := Deed.waiting_of_next_applied hnext
    obtain ⟨earlier, between, rfl, hbetween⟩ := Deed.fate_waiting hf₁
    refine ⟨c, earlier, between, rfl, fun deed hdeed => ?_⟩
    obtain ⟨hdisturbed, hinvalidated, habout⟩ := hbetween deed hdeed
    exact ⟨fun hid => Bool.noConfusion (habout hid).2, hdisturbed, hinvalidated⟩
  · subst hv
    have hpoised := hsecluded.poised hrun.settled hagenda
    exact hpoised.answer_in_vain (fun id => (hfate id).imp fun f hf => ⟨hf.1, hf.2.pop hagenda⟩) hop
      hother
  · obtain ⟨f, hf, hfits⟩ := hfate id
    rw [hfits.isPending_iff hquiet hsecluded.batched hkeeps hdirect]
    constructor
    · rintro ⟨c, leg, rfl⟩
      obtain ⟨-, -, herrand, -⟩ := hfits.upholds
      cases hcell : w.cell? c with
      | none => exact .inr (stray_of_fate hf hcell)
      | some cell => exact .inl ⟨c, cell, hcell, active_of_errand (herrand cell hcell)⟩
    · rintro (⟨c, cell, hcell, hactive⟩ | ⟨c, leg, before, between, rfl, -, hbetween⟩)
      · have hc := hfits.cell hcell hactive
        cases f with
        | waiting c' leg p =>
          obtain ⟨⟨-, hwithdrawn⟩, -⟩ := hfits.upholds
          cases p with
          | true => exact ⟨c', leg, rfl⟩
          | false => exact absurd (hwithdrawn rfl) hdirect
        | doomed c' p => exact absurd ⟨p, .inl rfl⟩ (hfits.not_sinking hquiet hsecluded.batched)
        | _ => cases hc
      · exact ⟨c, leg, Deed.waiting_of_sent hf hbetween⟩
  · obtain ⟨f, hf, -⟩ := hfate id
    obtain ⟨c, leg, before, between, rfl, hnone, hbetween⟩ := hstray
    obtain rfl := Deed.waiting_of_sent hf hbetween
    exact h.cell?_of_waiting hprompt hmay hf hnone

/-- The expression of a cell is replaced while the cell waits: its command is cancelled, and only the
next one is in the queue. -/
theorem accounts_edited :
    let backend : Backend := .queueing toString
    let may : Workspace → Op → Prop := fun w op => w.abandons op = false
    let made := (({ backend } : Workspace).call
      (.newCell .origin (.app "Equal" [.string "old", .missing]) (some 0) true)).settle 11
    let w := (made.call (.setExpression 0 (.app "Equal" [.string "new", .missing]))).settle 11
    ∃ deeds, deeds.map Deed.command? = [none, some 0, none, none, some 0, some 1] ∧
      Accounts backend may deeds w ∧ w.agenda = [] ∧
      (w.commands.isPending 0, w.commands.isPending 1) = (false, true) := by
  intro backend may made w
  have hprompt : backend.Prompt := ⟨by simp [backend, Backend.queueing], fun _ => rfl⟩
  have hmade : Chronicle backend may _ made :=
    (Chronicle.start.call (.newCell .origin (.app "Equal" [.string "old", .missing]) (some 0) true)
      rfl not_false rfl).settle 11
  have hquiet : made.agenda = [] := by decide +kernel
  have hw := (hmade.call (.setExpression 0 (.app "Equal" [.string "new", .missing])) hquiet
    not_false rfl).settle 11
  exact ⟨_, by decide +kernel, hw.accounts hprompt, by decide +kernel⟩

/-- A client lets go of a cell that waits. The cell is gone, and its command stays in the queue. -/
theorem pending_dropped :
    let backend : Backend := .queueing toString
    let made := (({ backend } : Workspace).call
      (.newCell .origin (.app "Equal" [.string "old", .missing]) (some 0) true)).settle 11
    let w := (made.call (.dropCell 0)).settle 1
    (∃ deeds, Chronicle backend (fun _ _ => True) deeds w) ∧ w.agenda = [] ∧
      w.cells.isEmpty = true ∧ w.commands.isPending 0 = true := by
  intro backend made w
  have hmade : Chronicle backend (fun _ _ => True) _ made :=
    (Chronicle.start.call (.newCell .origin (.app "Equal" [.string "old", .missing]) (some 0) true)
      rfl not_false trivial).settle 11
  have hquiet : made.agenda = [] := by decide +kernel
  exact ⟨⟨_, (hmade.call (.dropCell 0) hquiet not_false trivial).settle 1⟩, by decide +kernel⟩

end Workspace

end MathCanvas
