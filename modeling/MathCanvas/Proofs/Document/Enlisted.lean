import MathCanvas.Proofs.Document.Passage
import MathCanvas.Proofs.Workspace.Chronicle
import MathCanvas.Proofs.Workspace.Posting

/-!
# Cells of a document are enrolled in their scopes

What is known of the cells of a workspace holds of those of a document: in every passage they are
enrolled in their scopes, or are going to be (`Workspace.Passage.enlisted`), and if the backend only
answers the commands that it is given, the workspace is to itself (`Workspace.Passage.secluded`).
-/

namespace MathCanvas

namespace Workspace

variable {w : Workspace} {backend : Backend} {tree : ScopeTree} {held : List ScopeId}

/-- The cells are enrolled in their scopes, or are going to be, and nobody but the client calls
operations, except for answers. -/
structure Enlisted (w : Workspace) : Prop where
  ready : w.Ready
  closed : w.Closed
  operations : ∀ op, .operate op ∈ w.agenda →
    ¬op.Subscribes ∧ (op.Answers ∨ w.agenda = [.operate op])
  apportioned : w.Apportioned w.agenda
  posted : w.Posted w.agenda

namespace Enlisted

theorem start (hbackend : backend.Answering) : ({ backend } : Workspace).Enlisted where
  ready := Reached.start.ready
  closed := ⟨rfl, hbackend⟩
  operations _ hop := by simp at hop
  apportioned := .start backend
  posted := .start backend

theorem call (h : w.Enlisted) (hquiet : w.agenda = []) {op : Op} (hop : ¬op.Subscribes) :
    (w.call op).Enlisted where
  ready := h.ready.call hquiet op
  closed := ⟨h.closed.subscriptions, h.closed.answering⟩
  operations op' hmem := by
    obtain rfl : op' = op := by simpa [Workspace.call] using hmem
    exact ⟨hop, .inr rfl⟩
  apportioned := h.apportioned.call op
  posted := h.posted.call hquiet op

theorem step (h : w.Enlisted) (hbusy : w.agenda ≠ []) : w.step.Enlisted := by
  obtain ⟨task, rest, hagenda⟩ := List.exists_cons_of_ne_nil hbusy
  have hop : ∀ op, task = .operate op → ¬op.Subscribes ∧ (op.Answers ∨ rest = []) := by
    rintro op rfl
    obtain ⟨hsubscribes, hanswers⟩ := h.operations op (by rw [hagenda]; exact List.mem_cons_self)
    exact ⟨hsubscribes, hanswers.imp_right fun heq =>
      (List.cons.inj (hagenda.symm.trans heq)).2⟩
  have hclosed : ({ w with agenda := rest } : Workspace).Closed :=
    ⟨h.closed.subscriptions, h.closed.answering⟩
  have hresponds := (perform_responds hclosed fun op heq => (hop op heq).1).sweep
  have hstep := step_of_agenda hagenda
  refine ⟨h.ready.step, hstep ▸ hclosed.responds hresponds, fun op hmem => ?_,
    h.apportioned.step h.ready, h.posted.step hagenda h.ready h.apportioned fun op heq =>
      (hop op heq).2.imp_left Op.Answers.enlists⟩
  obtain ⟨tasks, htasks, hanswers⟩ := hresponds.agenda
  rw [hstep, htasks] at hmem
  rcases List.mem_append.mp hmem with hmem | hmem
  · exact ⟨(hanswers op hmem).not_subscribes, .inl (hanswers op hmem)⟩
  · obtain ⟨hsubscribes, hbefore⟩ :=
      h.operations op (by rw [hagenda]; exact List.mem_cons_of_mem _ hmem)
    refine ⟨hsubscribes, .inl (hbefore.resolve_right fun heq => ?_)⟩
    rw [(List.cons.inj (hagenda.symm.trans heq)).2] at hmem
    cases hmem

/-- In the scopes that the client makes nobody is enrolled. -/
theorem rehouse (h : w.Enlisted) (hquiet : w.agenda = []) (hrehouses : w.Rehouses tree held) :
    ({ w with tree, heldScopes := held } : Workspace).Enlisted where
  ready := .resting (hrehouses.coherent.of_same rfl rfl rfl rfl rfl)
  closed := ⟨h.closed.subscriptions, h.closed.answering⟩
  operations op hmem := by
    rw [hquiet] at hmem
    cases hmem
  apportioned := by
    refine h.apportioned.of_fewer (fun o s id ho => ?_) (List.Sublist.refl _)
      (fun s id ho => ?_) (fun hmem => ?_) fun hmem => ?_
    · cases o <;> exact ho
    · rw [hquiet] at ho
      cases ho
    · rw [hquiet] at hmem
      cases hmem
    · rw [hquiet] at hmem
      cases hmem
  posted := by
    have hrolls := hrehouses.grows.sameRolls h.ready.tied
    have hpresent : ∀ {q}, w.tree.get? q ≠ none → tree.get? q ≠ none := by
      intro q hq
      obtain ⟨scope, hscope⟩ := Option.ne_none_iff_exists'.mp hq
      rw [hrehouses.grows.get?_of_some h.ready.tied hscope]
      simp
    exact h.posted.carry h.posted.queued (fun _ hmem _ => hmem) (fun hcell => ⟨_, hcell, .refl _⟩)
      (fun _ _ => id) (fun _ _ => id) (fun _ hx => hrolls.enrolled.mpr hx)
      (fun hs => hrehouses.held _ hs) (fun hcell hs => hpresent (h.posted.housed hcell hs))
      (fun hmem => hpresent ((h.posted.entering hmem).1 _ rfl)) fun _ => id

end Enlisted

/-- In every passage, the cells are enrolled in their scopes, or are going to be. -/
theorem Passage.enlisted (h : Passage backend w) (hbackend : backend.Answering) : w.Enlisted := by
  induction h with
  | start => exact .start hbackend
  | call op _ hquiet hop ih => exact ih.call hquiet hop.not_subscribes
  | step _ hbusy ih => exact ih.step hbusy
  | rehouse _ hquiet hrehouses ih => exact ih.rehouse hquiet hrehouses

/-- New regions bring in nobody who listens. -/
theorem Secluded.rehouse (h : w.Secluded) (hquiet : w.agenda = [])
    (hrehouses : w.Rehouses tree held) :
    ({ w with tree, heldScopes := held } : Workspace).Secluded where
  ready := .resting (hrehouses.coherent.of_same rfl rfl rfl rfl rfl)
  subscriptions := h.subscriptions
  prompt := h.prompt
  numbered := h.numbered
  operations := h.operations
  held := h.held
  attuned := by
    have htied := h.ready.tied
    exact {
      silent := fun hl =>
        h.attuned.silent (hrehouses.grows.definitionListeners_eq htied _ _ ▸ hl)
      numbered := fun hl => h.attuned.numbered (hrehouses.grows.listeners_eq htied _ _ ▸ hl)
      current := fun hl => h.attuned.current (hrehouses.grows.listeners_eq htied _ _ ▸ hl) }
  clearing c := clearing_of_none (by simp [hquiet])
  batched c := ⟨(h.batched c).once, (h.batched c).outermost, (h.batched c).suspended⟩

/-- If the backend only answers the commands that it is given, nobody but cells and importers listens
in a passage. -/
theorem Passage.secluded (h : Passage backend w) (hprompt : backend.Prompt) : w.Secluded := by
  induction h with
  | start => exact .start hprompt
  | call op _ hquiet hop ih => exact ih.call hquiet hop.not_subscribes
  | step _ hbusy ih =>
    obtain ⟨task, rest, hagenda⟩ := List.exists_cons_of_ne_nil hbusy
    rw [step_of_agenda hagenda]
    exact ih.step hagenda
  | rehouse _ hquiet hrehouses ih => exact ih.rehouse hquiet hrehouses

end Workspace

namespace Document

open Workspace

variable {d : Document} {settings : DocumentSettings} {backend : Backend}
  {may : Document → Edit → Prop} {c : CellId} {cell : Cell} {name : String} {s : ScopeId} {x : Nat}
  {k : Role}

/-- In a document at rest, what a cell has is in its scope, a definition at the position of the cell,
and a reader there too, or just before it if the cell has a definition of the name. -/
theorem Reached.enrolled (h : Reached settings backend may d) (hbackend : backend.Answering)
    (hquiet : d.workspace.agenda = []) (hcell : d.workspace.cell? c = some cell)
    (hx : cell.Has name s x k) :
    cell.scope = some s ∧ d.workspace.tree.Enrolled s x name (cell.stand name k) k := by
  obtain ⟨w, past, hd, hpassage⟩ := h.exists_passage hbackend hquiet
  rw [hd] at hcell hquiet ⊢
  exact (hpassage.enlisted hbackend).posted.enrolled (List.append_eq_nil_iff.mp hquiet).1 hcell hx

end Document

end MathCanvas
