import MathCanvas.Proofs.Scope.Shape
import MathCanvas.Proofs.Workspace.Closed

/-!
# The scopes of a workspace in progress

Only two operations of the client change which scopes there are, or which of them are held:
`Op.child` makes one and `Op.dropScope` lets go of one. All other tasks leave the places of the
scopes as they are (`Workspace.perform_keepsScopes`), and sweeping takes away none that is held
(`Workspace.shape?_sweep`).
-/

namespace MathCanvas

/-- Whether an operation makes a scope or lets go of one. -/
def Op.Houses : Op → Prop
  | .child .. | .dropScope _ => True
  | _ => False

namespace Workspace

variable {w w' w'' : Workspace} {tasks : List Task}

/-- The scopes are where they were, and the client holds the same ones. -/
structure KeepsScopes (w w' : Workspace) : Prop where
  shape : w.tree.SameShape w'.tree
  heldScopes : w'.heldScopes = w.heldScopes

namespace KeepsScopes

theorem refl (w : Workspace) : w.KeepsScopes w := ⟨.refl w.tree, rfl⟩

theorem of_same (h : w.KeepsScopes w') (htree : w''.tree = w'.tree)
    (hheld : w''.heldScopes = w'.heldScopes) : w.KeepsScopes w'' :=
  ⟨htree ▸ h.shape, hheld.trans h.heldScopes⟩

theorem withTree (h : w.KeepsScopes w') {tree : ScopeTree} (htree : w'.tree.SameShape tree) :
    w.KeepsScopes ({ w' with tree } : Workspace) := ⟨h.shape.trans htree, h.heldScopes⟩

theorem push (h : w.KeepsScopes w') (tasks : List Task) : w.KeepsScopes (w'.push tasks) :=
  h.of_same rfl rfl

theorem putCell (h : w.KeepsScopes w') (c : CellId) (cell : Cell) :
    w.KeepsScopes (w'.putCell c cell) := h.of_same rfl rfl

theorem spread (h : w.KeepsScopes w') (s : ScopeId) {result : List ReaderId × ScopeTree}
    (hresult : w'.tree.SameShape result.2) : w.KeepsScopes (w'.spread s result) :=
  (h.withTree hresult).push _

theorem write (h : w.KeepsScopes w') (s : ScopeId) (id : SlotId) (v : SlotValue) :
    w.KeepsScopes (w'.write s id v) := by
  have hwrite := h.withTree (w'.tree.sameShape_write s id v)
  unfold Workspace.write
  simp only
  split
  · exact hwrite.push _
  · exact hwrite

theorem tell (h : w.KeepsScopes w') (l : Listener) (v : SlotValue) :
    w.KeepsScopes (w'.tell v l) := by
  unfold Workspace.tell
  split
  · split
    · exact h.spread _ (ScopeTree.sameShape_update _ _ _)
    · exact h
  · split
    · exact h
    split
    · exact h
    split
    · exact h
    simp only
    split
    · exact h.putCell _ _
    · exact (h.putCell _ _).push _
  · split
    · exact h
    · exact h.of_same rfl rfl

theorem advance (h : w.KeepsScopes w') (c : CellId) (cell : Cell) (generation : Nat) :
    w.KeepsScopes (w'.advance c cell generation) := by
  unfold Workspace.advance
  split
  · exact h
  split
  · exact h
  split
  · exact h.putCell _ _
  · exact h.of_same rfl rfl
  · exact (h.putCell _ _).push _

theorem receive (h : w.KeepsScopes w') (id : CommandId) (c : CellId) (outcome : Outcome) :
    w.KeepsScopes (w'.receive id c outcome) := by
  unfold Workspace.receive
  split
  · exact h
  split
  · exact h
  simp only
  split
  · exact h.putCell _ _
  split
  · exact h.putCell _ _
  · exact (h.putCell _ _).push _

theorem setScope (h : w.KeepsScopes w') (c : CellId) (cell : Cell) (scope : Option ScopeId) :
    w.KeepsScopes (w'.setScope c cell scope) := by
  unfold Workspace.setScope
  split
  · exact h
  · exact (h.putCell _ _).push _

theorem performCell (h : w.KeepsScopes w') (c : CellId) (cell : Cell) (task : CellTask) :
    w.KeepsScopes (w'.performCell c cell task) := by
  unfold Workspace.performCell
  split
  · exact h.push _
  · exact (h.putCell _ _).push _
  · split
    · exact h.push _
    · exact h.putCell _ _
  · exact (h.putCell _ _).push _
  · exact h.advance c cell _
  · exact (h.putCell _ _).push _
  · split
    · exact h
    · exact (h.putCell _ _).push _
  · split
    · exact h
    split
    · exact h
    · rename_i hadd
      exact (h.withTree (ScopeTree.sameShape_addDefinition hadd)).push _
  · exact h.putCell _ _
  · split
    · exact h
    split
    · exact h
    · rename_i hadd
      exact (h.withTree ((ScopeTree.sameShape_addReader hadd).trans
        (ScopeTree.sameShape_listenToReader _ _))).putCell _ _
  · exact (h.putCell _ _).push _

theorem onHeldCell {c : CellId} {f : Cell → Workspace} (hf : ∀ cell, w.KeepsScopes (f cell)) :
    w.KeepsScopes (w.onHeldCell c f) := by
  unfold Workspace.onHeldCell Workspace.onCell
  split
  · split
    · exact hf _
    · exact .refl w
  · exact .refl w

theorem answerCommand (w : Workspace) (id : CommandId) (answer : Answer) :
    w.KeepsScopes (w.answerCommand id answer).2 := by
  have h : ∀ commands, w.KeepsScopes ({ w with commands } : Workspace) :=
    fun _ => (KeepsScopes.refl w).of_same rfl rfl
  unfold Workspace.answerCommand
  split
  · exact .refl w
  · rename_i command commands _
    cases answer with
    | outcome outcome => exact (h commands).receive _ _ _
    | computed => exact (h commands).receive _ _ _
    | unreadable e => exact h commands

theorem letGo (w : Workspace) (k : SubscriptionId) (ends : Bool) :
    w.KeepsScopes (w.letGo k ends) := by
  have h := KeepsScopes.refl w
  unfold Workspace.letGo
  split
  · exact h
  split
  · simp only
    split
    · split
      · split
        · exact (h.withTree (ScopeTree.sameShape_ignoreDefinition _ _)).of_same rfl rfl
        · exact h.of_same rfl rfl
      · split
        · exact (h.withTree (ScopeTree.sameShape_ignoreReader _ _)).of_same rfl rfl
        · exact h.of_same rfl rfl
    · exact h.of_same rfl rfl
  · exact h

theorem subscribe (w : Workspace) (handle : HandleRef) (reaction : Nat → SlotValue → List Op) :
    w.KeepsScopes (w.subscribe handle reaction) := by
  have h := KeepsScopes.refl w
  unfold Workspace.subscribe
  simp only
  split
  · split
    · exact (h.withTree (ScopeTree.sameShape_listenToDefinition _ _)).of_same rfl rfl
    · exact h.of_same rfl rfl
  · split
    · exact (h.withTree (ScopeTree.sameShape_listenToReader _ _)).of_same rfl rfl
    · exact h.of_same rfl rfl

theorem operate {op : Op} (hop : ¬op.Houses) : w.KeepsScopes (w.operate op).2 := by
  have h := KeepsScopes.refl w
  cases op with
  | child parent name start closed => exact absurd trivial hop
  | dropScope s => exact absurd trivial hop
  | dropCell c | ask c name | unreadable e => exact h.of_same rfl rfl
  | addDefinition s name p =>
    unfold Workspace.operate
    simp only
    split
    · split
      · rename_i hadd
        exact (h.withTree (ScopeTree.sameShape_addDefinition hadd)).push _
      · exact h
    · exact h
  | addReader s name p =>
    unfold Workspace.operate
    simp only
    split
    · split
      · rename_i hadd
        exact (h.withTree (ScopeTree.sameShape_addReader hadd)).of_same rfl rfl
      · exact h
    · exact h
  | set n value | clear n =>
    unfold Workspace.operate
    simp only
    split
    · exact h.write _ _ _
    · exact h
  | move handle p | remove handle =>
    cases handle with
    | definition n | reader n =>
      unfold Workspace.operate
      simp only
      split
      · exact h.push _
      · exact h
  | subscribe handle reaction => exact .subscribe w handle reaction
  | unsubscribe k | detach k => exact .letGo w k _
  | newCell position expression scope automatic =>
    refine setScope (KeepsScopes.putCell ?_ _ _) _ _ _
    exact h.of_same rfl rfl
  | setScope c scope =>
    refine onHeldCell fun cell => ?_
    split
    · exact h.setScope _ _ _
    · exact h
  | setExpression c expression => exact onHeldCell fun cell => h.of_same rfl rfl
  | setPosition c position =>
    refine onHeldCell fun cell => ?_
    split
    · exact h
    · exact h.of_same rfl rfl
  | setAutomatic c automatic => exact onHeldCell fun cell => (h.putCell _ _).push _
  | recalculate c => exact onHeldCell fun cell => h.push _
  | recalculateStale c =>
    refine onHeldCell fun cell => ?_
    split
    · exact h.push _
    · exact h
  | answer command answer =>
    unfold Workspace.operate
    simp only
    split
    · exact .answerCommand w _ _
    · exact h
  | next =>
    unfold Workspace.operate
    simp only
    split
    · exact h
    · exact h.of_same rfl rfl
  | reply text =>
    unfold Workspace.operate
    simp only
    split
    · exact h
    split
    · exact .answerCommand w _ _
    · exact h

end KeepsScopes

theorem perform_keepsScopes {task : Task} (htask : ∀ op, task = .operate op → ¬op.Houses) :
    w.KeepsScopes (w.perform task) := by
  have h := KeepsScopes.refl w
  cases task with
  | operate op => exact .operate (htask op rfl)
  | notifyReaders s readers =>
    unfold perform
    cases readers with
    | nil => exact h
    | cons reader rest =>
      simp only
      split <;> exact h.push _
  | notifyDefinition s slot =>
    unfold perform
    simp only
    split
    · exact h.push _
    · exact h
  | tell listener value => exact h.tell listener value
  | write s slot value => exact h.write s slot value
  | moveDefinition s slot p => exact h.spread s (ScopeTree.sameShape_update _ _ _)
  | moveReader s reader p => exact h.spread s (ScopeTree.sameShape_update _ _ _)
  | removeDefinition s slot => exact h.spread s (ScopeTree.sameShape_removeDefinition _ _ _)
  | removeReader s reader => exact h.spread s (ScopeTree.sameShape_removeReader _ _ _)
  | keepDefinition s slot name => exact h.of_same rfl rfl
  | cancel id =>
    unfold perform
    simp only
    split <;> exact h.of_same rfl rfl
  | cell c task =>
    cases hcell : w.cell? c with
    | none =>
      rw [perform_cell_of_none hcell]
      exact h
    | some cell =>
      rw [perform_cell hcell]
      exact h.performCell c cell task
  | releaseScope s | releaseCell c => exact h

/-! ### Sweeping -/

theorem sameShape_forgetCell (w : Workspace) (c : CellId) (cell : Cell) :
    w.tree.SameShape (w.forgetCell c cell).tree :=
  ScopeTree.sameShape_foldl (fun _ _ => ScopeTree.sameShape_ignoreReader _ _) _ _

/-- The scopes that somebody refers to after sweeping stay where they are. -/
theorem shape?_sweep_of_referred {s : ScopeId} (hs : s ∈ w.sweep.referredScopes) :
    w.sweep.tree.shape? s = w.tree.shape? s := by
  have hforget : ∀ (entries : List (CellId × Cell)) (v : Workspace),
      v.KeepsScopes (entries.foldl (fun v entry =>
        if v.refersToCell entry.1 then v else v.forgetCell entry.1 entry.2) v) := by
    intro entries
    induction entries with
    | nil => exact fun v => .refl v
    | cons entry rest ih =>
      intro v
      rw [List.foldl_cons]
      split
      · exact ih v
      · have hshape := v.sameShape_forgetCell entry.1 entry.2
        have hrest := ih (v.forgetCell entry.1 entry.2)
        exact ⟨hshape.trans hrest.shape, hrest.heldScopes⟩
  have hcells := hforget w.cells.toList w
  exact (ScopeTree.shape?_removeAll (List.mem_append_left _ hs) _ _).trans
    (hcells.shape.shape?_eq s)

theorem heldScopes_sweep (w : Workspace) : w.sweep.heldScopes = w.heldScopes := by
  obtain ⟨cells, tree, heq, -⟩ := w.exists_sweep_eq
  rw [heq]

/-- The scopes that the client holds stay where they are. -/
theorem shape?_sweep {s : ScopeId} (hs : s ∈ w.heldScopes) :
    w.sweep.tree.shape? s = w.tree.shape? s :=
  shape?_sweep_of_referred
    (List.mem_append_left _ (List.mem_append_left _ (w.heldScopes_sweep ▸ hs)))

/-! ### Scopes that are there -/

theorem get?_ne_none_of_shape? {t t' : ScopeTree} {s : ScopeId} (h : t'.shape? s = t.shape? s)
    (hs : t.get? s ≠ none) : t'.get? s ≠ none := by
  intro hnone
  rw [ScopeTree.shape?, hnone, ScopeTree.shape?] at h
  exact hs (Option.map_eq_none_iff.mp h.symm)

/-- No task takes a scope away. -/
theorem get?_perform {s : ScopeId} (task : Task) (hs : w.tree.get? s ≠ none) :
    (w.perform task).tree.get? s ≠ none := by
  by_cases hhouses : ∃ op, task = .operate op ∧ op.Houses
  · obtain ⟨op, rfl, hhouses⟩ := hhouses
    cases op with
    | child parent name start closed =>
      unfold perform operate
      simp only
      split
      · simp only [ScopeTree.get?, ScopeTree.child, lookup_insert]
        split
        · rintro ⟨⟩
        · exact hs
      · exact hs
    | dropScope q => exact hs
    | _ => exact hhouses.elim
  · exact get?_ne_none_of_shape? ((perform_keepsScopes fun op htask hop =>
      hhouses ⟨op, htask, hop⟩).shape.shape?_eq s) hs

/-- The scopes that the client holds are there. -/
theorem get?_of_mem_heldScopes_perform (hheld : ∀ s ∈ w.heldScopes, w.tree.get? s ≠ none)
    (task : Task) {s : ScopeId} (hs : s ∈ (w.perform task).heldScopes) :
    (w.perform task).tree.get? s ≠ none := by
  by_cases hhouses : ∃ op, task = .operate op ∧ op.Houses
  · obtain ⟨op, rfl, hhouses⟩ := hhouses
    cases op with
    | child parent name start closed =>
      unfold perform operate at hs ⊢
      simp only at hs ⊢
      split
      · rename_i hparent
        rw [if_pos hparent] at hs
        simp only [ScopeTree.get?, ScopeTree.child, lookup_insert]
        rcases List.mem_append.mp hs with hs | hs
        · split
          · rintro ⟨⟩
          · exact hheld s hs
        · rw [List.mem_singleton.mp hs, ScopeTree.child, if_pos rfl]
          rintro ⟨⟩
      · rename_i hparent
        rw [if_neg hparent] at hs
        exact hheld s hs
    | dropScope q => exact hheld s (List.mem_filter.mp hs).1
    | _ => exact hhouses.elim
  · rw [(perform_keepsScopes fun op htask hop => hhouses ⟨op, htask, hop⟩).heldScopes] at hs
    exact get?_perform task (hheld s hs)

end Workspace

end MathCanvas
