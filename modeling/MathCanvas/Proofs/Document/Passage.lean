import MathCanvas.Proofs.Document.Regions
import MathCanvas.Proofs.Scope.Grows
import MathCanvas.Proofs.Workspace.Within

/-!
# What a document passes through

An edit of a document calls a few operations one after the other (`Document.prepare`), and most of
what is known of a workspace is about operations that are called when nothing is in progress. A
`Workspace.Passage` leads through workspaces by such calls, by steps, and by new regions, which only
add scopes that are blank (`Workspace.Rehouses`). Up to the operations that are still pending, every
workspace of a document in progress is in a passage (`Document.exists_passage_settle`,
`Document.Reached.exists_passage`).
-/

namespace MathCanvas

namespace Workspace

variable {w : Workspace} {backend : Backend} {tree : ScopeTree} {held : List ScopeId}

/-- The client makes some scopes, and refers to others than before. -/
structure Rehouses (w : Workspace) (tree : ScopeTree) (held : List ScopeId) : Prop where
  coherent : ({ w with tree } : Workspace).Coherent fun _ _ => False
  grows : w.tree.Grows tree
  held : ∀ q ∈ held, tree.get? q ≠ none

/-- The workspaces that a document passes through, each without the operations that are pending. -/
inductive Passage (backend : Backend) : Workspace → Prop
  | start : Passage backend { backend }
  | call {w : Workspace} (op : Op) : Passage backend w → w.agenda = [] → op.InDocument →
      Passage backend (w.call op)
  | step {w : Workspace} : Passage backend w → w.agenda ≠ [] → Passage backend w.step
  | rehouse {w : Workspace} {tree : ScopeTree} {held : List ScopeId} : Passage backend w →
      w.agenda = [] → w.Rehouses tree held → Passage backend { w with tree, heldScopes := held }

/-- Sweeping is what is left of an operation that does nothing. -/
theorem Passage.sweep (h : Passage backend w) (hquiet : w.agenda = []) :
    Passage backend ({ w with history := [] } : Workspace).sweep := by
  have hstep := (h.call (.unreadable .null) hquiet trivial).step (by simp [Workspace.call])
  rwa [step_call hquiet] at hstep

/-- The workspace after some operations were called, before the first of them begins. -/
def opening (w : Workspace) (ops : List Op) : Workspace :=
  (({ w with history := [] } : Workspace).push (ops.map .operate)).sweep

theorem opening_eq (hquiet : w.agenda = []) (ops : List Op) :
    w.opening ops = (({ w with history := [] } : Workspace).sweep).within [] (ops.map .operate) := by
  rw [← sweep_within, opening, push, within, hquiet]
  simp

/-- What was recorded before makes no difference to operations that are called. -/
theorem opening_within (hquiet : w.agenda = []) (past : List Event) (ops : List Op) :
    (w.within past []).opening ops = w.opening ops := by
  simp [opening, within, hquiet]

/-- While operations are performed, a passage goes on. -/
theorem Passage.exists_settle (h : Passage backend w) {past : List Event} {ops : List Op}
    (hops : ∀ op ∈ ops, op.InDocument) (n : Nat) :
    ∃ (w' : Workspace) (past' : List Event) (later : List Op),
      (w.within past (ops.map .operate)).settle n = w'.within past' (later.map .operate) ∧
        Passage backend w' := by
  have hsettle : ∃ (w' : Workspace) (past' : List Event) (later : List Op),
      (w.within past (ops.map .operate)).settle n = w'.within past' (later.map .operate) ∧
        Passage backend w' ∧ ∀ op ∈ later, op.InDocument :=
    exists_settle_within (P := fun w ops => Passage backend w ∧ ∀ op ∈ ops, op.InDocument)
      (fun w ops h hbusy => ⟨h.1.step hbusy, h.2⟩)
      (fun w op ops h hquiet => ⟨(h.1.call op hquiet (h.2 op List.mem_cons_self)).step
        (by simp [Workspace.call]), fun other hmem => h.2 other (List.mem_cons_of_mem _ hmem)⟩)
      n ⟨h, hops⟩
  obtain ⟨w', past', later, heq, hpassage, -⟩ := hsettle
  exact ⟨w', past', later, heq, hpassage⟩

end Workspace

namespace Document

open Workspace Region

variable {d d' : Document} {settings : DocumentSettings} {backend : Backend}
  {may : Document → Edit → Prop} {ops : List Op} {e : Edit}

/-! ### The operations of an edit -/

/-- The operations that bring the cells of a document to the scopes that they belong to. -/
def homing (d : Document) : List Op :=
  d.entries.map fun entry => .setScope entry.cell (some (d.scopeAt (d.positionOf entry.cell)))

/-- The operations that an edit consists of, and the document in which they are called; none if it is
refused. An answer is no edit of the client's. -/
def prepare (d : Document) : Edit → Option (Document × List Op)
  | .createCell p e =>
    some (d.insertEntry ⟨d.workspace.nextCell, none⟩ p,
      [.newCell p e (some (d.scopeAt p)) (!d.settings.isManual)])
  | .setExpression key e => (d.cell? key).map fun c => (d, [.setExpression c e])
  | .moveCell key p =>
    (d.cell? key).bind fun c => (d.entries.find? (·.cell == c)).map fun entry =>
      ((d.removeEntry c).insertEntry entry p,
        [.setPosition c p, .setScope c (some (d.scopeAt p))])
  | .deleteCell key =>
    (d.cell? key).map fun c => (d.removeEntry c, [.setScope c none, .dropCell c])
  | .setCellSize key size =>
    (d.cell? key).map fun c =>
      ({ d with
          entries := d.entries.map fun entry =>
            if entry.cell == c then { entry with size := some size } else entry }, [])
  | .recalculateCell key => (d.cell? key).map fun c => (d, [.recalculate c])
  | .recalculate => some (d, d.entries.map fun entry => .recalculateStale entry.cell)
  | .setCalculationMode mode =>
    some ({ d with settings := { d.settings with calculationMode := mode } },
      d.entries.map fun entry => .setAutomatic entry.cell (mode == .automatic))
  | .createRegion name start stop closed =>
    if stop ≤ start then none
    else
      let region : Region := ⟨d.nextRegion, name, start, stop, closed, none, ScopeTree.rootId⟩
      let d := ({ d with nextRegion := d.nextRegion + 1 } : Document).withRegions
        (d.regions ++ [region]) (some d.nextRegion)
      some (d, d.homing)
  | .deleteRegion key =>
    (d.region? key).map fun region =>
      let d := d.withRegions (d.regions.filter (·.id != region.id)) none
      (d, d.homing)
  | .answer _ _ => none

/-- An edit performs its operations. -/
theorem edit_eq_run (hanswer : ∀ op answers, e ≠ .answer op answers) :
    d.edit e = (d.prepare e).elim d fun called => called.1.run called.2 := by
  cases e with
  | createCell p e => rfl
  | setExpression key e =>
    rw [edit, setExpression, onCell, prepare]
    cases d.cell? key <;> rfl
  | moveCell key p =>
    rw [edit, moveCell, onCell, prepare]
    cases d.cell? key with
    | none => rfl
    | some c =>
      rw [Option.bind_some]
      simp only
      cases d.entries.find? (·.cell == c) <;> rfl
  | deleteCell key =>
    rw [edit, deleteCell, onCell, prepare]
    cases d.cell? key <;> rfl
  | setCellSize key size =>
    rw [edit, setCellSize, onCell, prepare]
    cases d.cell? key <;> rfl
  | recalculateCell key =>
    rw [edit, recalculateCell, onCell, prepare]
    cases d.cell? key <;> rfl
  | recalculate => rfl
  | setCalculationMode mode => rfl
  | createRegion name start stop closed =>
    rw [edit, createRegion, prepare]
    split <;> rfl
  | deleteRegion key =>
    rw [edit, deleteRegion, prepare]
    cases d.region? key <;> rfl
  | answer op answers => exact absurd rfl (hanswer op answers)

/-- The operations of an edit are of a few kinds, and none of them answers a command. -/
theorem inDocument_prepare (hprepare : d.prepare e = some (d', ops)) :
    ∀ op ∈ ops, op.InDocument ∧ ¬op.Answers := by
  have hhoming : ∀ d : Document, ∀ op ∈ d.homing, op.InDocument ∧ ¬op.Answers := by
    intro d op hop
    obtain ⟨entry, -, rfl⟩ := List.mem_map.mp hop
    exact ⟨trivial, id⟩
  cases e with
  | createCell p e =>
    cases hprepare
    simp [Op.InDocument, Op.Answers]
  | moveCell key p =>
    obtain ⟨c, -, hprepare⟩ := Option.bind_eq_some_iff.mp hprepare
    obtain ⟨entry, -, hprepare⟩ := Option.map_eq_some_iff.mp hprepare
    cases hprepare
    simp [Op.InDocument, Op.Answers]
  | setExpression key e | deleteCell key | setCellSize key size | recalculateCell key =>
    obtain ⟨c, -, hprepare⟩ := Option.map_eq_some_iff.mp hprepare
    cases hprepare
    simp [Op.InDocument, Op.Answers]
  | recalculate =>
    cases hprepare
    simp [Op.InDocument, Op.Answers]
  | setCalculationMode mode =>
    cases hprepare
    simp [Op.InDocument, Op.Answers]
  | createRegion name start stop closed =>
    rw [prepare] at hprepare
    split at hprepare
    · cases hprepare
    · cases hprepare
      exact hhoming _
  | deleteRegion key =>
    obtain ⟨region, -, hprepare⟩ := Option.map_eq_some_iff.mp hprepare
    cases hprepare
    exact hhoming _
  | answer op answers => cases hprepare

/-- Settling the regions makes scopes that are blank. -/
theorem grows_settling (htied : d.workspace.tree.WellTied) (regions : List Region)
    (created : Option RegionId) :
    d.workspace.tree.Grows (d.settling regions created).tree := by
  have hfold : ∀ (entries : List (Region × Nat)) (s : Settling), s.tree.WellTied →
      d.workspace.tree.Grows s.tree → d.workspace.tree.Grows (entries.foldl
        (fun s entry => settleRegion (sortBy Region.notAfter regions) created s entry.1 entry.2)
        s).tree := by
    intro entries
    induction entries with
    | nil => exact fun s _ h => h
    | cons entry rest ih =>
      intro s hs h
      rw [List.foldl_cons]
      unfold settleRegion
      simp only
      split
      · exact ih _ (ScopeTree.advances_child hs _ _ _ _ 0).tied (h.trans (.child hs _ _ _ _))
      · exact ih { s with settled := s.settled ++ [entry.1] } hs h
  exact hfold _ ⟨d.workspace.tree, [], []⟩ htied (.refl htied)

theorem Nested.rehouses (h : d.Nested) (hquiet : d.workspace.agenda = []) {regions : List Region}
    {created : Option RegionId} (hadmits : d.Admits regions created) :
    d.workspace.Rehouses (d.withRegions regions created).workspace.tree
      (d.withRegions regions created).workspace.heldScopes where
  coherent := (h.progress hquiet hadmits).coherent
  grows := grows_settling h.tends.ready.tied regions created
  held q hq := by
    have hn := h.withRegions hquiet hadmits
    rcases List.mem_cons.mp hq with rfl | hq
    · exact hn.root
    · obtain ⟨r, hr, rfl⟩ := List.mem_map.mp hq
      obtain ⟨further, hshape⟩ := hn.around r hr
      rw [Ne, ← ScopeTree.shape?_eq_none_iff, hshape]
      simp

/-- An edit calls its operations in the workspace as it is, or after the regions were settled. -/
theorem Nested.workspace_prepare (h : d.Nested) (hquiet : d.workspace.agenda = [])
    (hprepare : d.prepare e = some (d', ops)) : d'.workspace = d.workspace ∨
      ∃ tree held, d.workspace.Rehouses tree held ∧
        d'.workspace = { d.workspace with tree, heldScopes := held } := by
  cases e with
  | createCell p e =>
    cases hprepare
    exact .inl rfl
  | moveCell key p =>
    obtain ⟨c, -, hprepare⟩ := Option.bind_eq_some_iff.mp hprepare
    obtain ⟨entry, -, hprepare⟩ := Option.map_eq_some_iff.mp hprepare
    cases hprepare
    exact .inl rfl
  | setExpression key e | deleteCell key | setCellSize key size | recalculateCell key =>
    obtain ⟨c, -, hprepare⟩ := Option.map_eq_some_iff.mp hprepare
    cases hprepare
    exact .inl rfl
  | recalculate =>
    cases hprepare
    exact .inl rfl
  | setCalculationMode mode =>
    cases hprepare
    exact .inl rfl
  | createRegion name start stop closed =>
    rw [prepare] at hprepare
    split at hprepare
    · cases hprepare
    · rename_i hproper
      cases hprepare
      exact .inr ⟨_, _, h.withNext.rehouses hquiet
        (h.admits_append rfl (Position.not_le.mp hproper)), rfl⟩
  | deleteRegion key =>
    obtain ⟨region, -, hprepare⟩ := Option.map_eq_some_iff.mp hprepare
    cases hprepare
    exact .inr ⟨_, _, h.rehouses hquiet (h.admits_filter _), rfl⟩
  | answer op answers => cases hprepare

/-! ### The workspaces of a document -/

/-- The workspace in which the operations of an edit have just been called. -/
def launch (d : Document) (e : Edit) : Workspace :=
  match e with
  | .answer op _ => d.workspace.call op
  | e => (d.prepare e).elim d.workspace fun called => called.1.workspace.opening called.2

theorem launch_eq (hanswer : ∀ op answers, e ≠ .answer op answers) : d.launch e =
    (d.prepare e).elim d.workspace fun called => called.1.workspace.opening called.2 := by
  cases e with
  | answer op answers => exact absurd rfl (hanswer op answers)
  | _ => rfl

/-- An edit performs what it launches. -/
theorem exists_edit_eq_settle (hquiet : d.workspace.agenda = []) (e : Edit) :
    ∃ n, (d.edit e).workspace = (d.launch e).settle n := by
  by_cases hanswer : ∃ op answers, e = .answer op answers
  · obtain ⟨op, answers, rfl⟩ := hanswer
    exact ⟨_, apply_eq_settle hquiet op⟩
  · have hother : ∀ op answers, e ≠ .answer op answers := fun op answers heq =>
      hanswer ⟨op, answers, heq⟩
    rw [edit_eq_run hother, launch_eq hother]
    cases d.prepare e with
    | none => exact ⟨0, by simp [Workspace.settle]⟩
    | some called => exact ⟨taskLimit, rfl⟩

/-- The workspace in which an edit calls its operations is in a passage. -/
theorem exists_passage_prepare {w : Workspace} {past : List Event} (h : Passage backend w)
    (hd : d.workspace = w.within past []) (hn : d.Nested) (hquiet : d.workspace.agenda = [])
    (hprepare : d.prepare e = some (d', ops)) : ∃ v : Workspace,
      d'.workspace = v.within past [] ∧ v.agenda = [] ∧ v.cells = w.cells ∧ Passage backend v := by
  have hw : w.agenda = [] := by simpa [hd, within] using hquiet
  rcases hn.workspace_prepare hquiet hprepare with heq | ⟨tree, held, hrehouses, heq⟩
  · exact ⟨w, heq.trans hd, hw, rfl, h⟩
  · rw [hd] at hrehouses
    refine ⟨{ w with tree, heldScopes := held }, ?_, hw, rfl, h.rehouse hw
      ⟨hrehouses.coherent.of_same rfl rfl rfl rfl (by simp [within, hw]), hrehouses.grows,
        hrehouses.held⟩⟩
    rw [heq, hd]
    rfl

/-- Up to operations that are pending, every workspace of an edit in progress is in a passage. -/
theorem exists_passage_settle {w : Workspace} {past : List Event} (h : Passage backend w)
    (hd : d.workspace = w.within past []) (hn : d.Nested) (hquiet : d.workspace.agenda = [])
    (e : Edit) (n : Nat) : ∃ (w' : Workspace) (past' : List Event) (later : List Op),
      (d.launch e).settle n = w'.within past' (later.map .operate) ∧ Passage backend w' := by
  have hw : w.agenda = [] := by simpa [hd, within] using hquiet
  by_cases hanswer : ∃ op answers, e = .answer op answers
  · obtain ⟨op, answers, rfl⟩ := hanswer
    have hcall : d.launch (.answer op answers)
        = (w.call op).within [] (([] : List Op).map .operate) := by
      simp [launch, hd, Workspace.call, within]
    rw [hcall]
    exact (h.call op hw answers.inDocument).exists_settle (by simp) n
  · rw [launch_eq fun op answers heq => hanswer ⟨op, answers, heq⟩]
    cases hprepare : d.prepare e with
    | none =>
      have hnothing : w.within past [] = w.within past (([] : List Op).map .operate) := rfl
      rw [Option.elim_none, hd, hnothing]
      exact h.exists_settle (by simp) n
    | some called =>
      obtain ⟨v, hd', hv, -, hpassage⟩ := exists_passage_prepare h hd hn hquiet hprepare
      rw [Option.elim_some, hd', opening_within hv, opening_eq hv]
      exact (hpassage.sweep hv).exists_settle
        (fun op hop => (inDocument_prepare hprepare op hop).1) n

/-- Up to what was recorded before, the workspace of a document at rest is in a passage. -/
theorem Reached.exists_passage (h : Reached settings backend may d) (hbackend : backend.Answering)
    (hquiet : d.workspace.agenda = []) : ∃ (w : Workspace) (past : List Event),
      d.workspace = w.within past [] ∧ Passage backend w := by
  induction h with
  | new => exact ⟨{ backend }, [], by simp [Document.new, within], .start⟩
  | edit e hreached hbefore _ ih =>
    obtain ⟨w, past, hd, hpassage⟩ := ih hbefore
    obtain ⟨n, heq⟩ := exists_edit_eq_settle hbefore e
    obtain ⟨w', past', later, hsettle, hpassage'⟩ :=
      exists_passage_settle hpassage hd (hreached.nested hbackend) hbefore e n
    rw [heq, hsettle] at hquiet ⊢
    have hlater : later.map Task.operate = [] := (List.append_eq_nil_iff.mp hquiet).2
    exact ⟨w', past', by rw [hlater], hpassage'⟩

end Document

end MathCanvas
