import MathCanvas.Proofs.Scope.Links
import MathCanvas.Proofs.Workspace.Posting
import MathCanvas.Proofs.Workspace.Runs

/-!
# Links in a workspace

In every state of a workspace, between any two tasks, the links between the scopes are those that
the names in use call for (`ScopeTree.LinksInStep`), and what was a link at some time and is none
any more has left no reader behind (`Workspace.Reached.linked`). This is so whatever the client
does, in reactions to values too, and whatever the backend calls.
-/

namespace MathCanvas

namespace ScopeTree

/-- The scopes import just the names that are in use in them, each through one reader in the parent,
and names are in use because somebody needs them. -/
structure LinksInStep (t : ScopeTree) : Prop where
  /-- Every scope but the root has a parent. -/
  inside : ∀ {s : ScopeId} {scope : Scope}, t.get? s = some scope →
    (scope.ancestors = [] ↔ s = rootId)
  /-- An open scope that is not the root imports the names that have a list, and no others; the root
  and closed scopes import nothing. -/
  imports_iff : ∀ {s : ScopeId} {scope : Scope} {name : String}, t.get? s = some scope →
    ((∃ r, scope.imports[name]? = some r) ↔
      scope.closed = false ∧ s ≠ rootId ∧ scope.bindings.slotsOf name ≠ [])
  /-- The link is a reader of the name in the parent, where the scope starts, and nobody but the
  importer listens to it. -/
  link : ∀ {s : ScopeId} {scope : Scope} {name : String} {r : ReaderId}, t.get? s = some scope →
    scope.imports[name]? = some r → ∃ p around, scope.ancestors.head? = some p ∧
      t.get? p = some around ∧ around.bindings.anchor? r = some (name, scope.start) ∧
      around.readerListeners[r]? = some [.importer s name]
  /-- No two links share a reader. -/
  apart : ∀ {p : ScopeId} {r : ReaderId} {s c : ScopeId} {name n : String}, t.Feeds p r s name →
    t.Feeds p r c n → s = c ∧ name = n
  /-- A list is there for somebody in the scope, or in one inside that sees it. -/
  used_iff : ∀ {s : ScopeId} {scope : Scope} {name : String}, t.get? s = some scope →
    (scope.bindings.slotsOf name ≠ [] ↔ t.Needs s name)

theorem WellTied.inStep {t : ScopeTree} (h : t.WellTied)
    (hinside : ∀ {s scope}, t.get? s = some scope → (scope.ancestors = [] ↔ s = rootId)) :
    t.LinksInStep where
  inside := hinside
  imports_iff hs := by
    rw [(h.exact not_false hs).imports_iff, Scope.Imports, ne_eq, hinside hs]
  link hs hr := by
    obtain ⟨p, further, hanc, hfeeds⟩ := h.feeds_of_imports hs hr
    obtain ⟨around, scope', haround, hs', hanchor, hlisten⟩ := h.fed hfeeds
    cases hs.symm.trans hs'
    exact ⟨p, around, by rw [hanc, List.head?_cons], haround, hanchor, hlisten⟩
  apart hf hf' := h.feeds_inj hf hf'
  used_iff hs := h.used_iff hs

end ScopeTree

namespace Workspace

variable {w w' : Workspace} {due : ScopeId → ReaderId → Prop} {c : CellId} {cell : Cell} {task : Task}
  {backend : Backend} {past : List Event}

/-! ### What leaves the tree alone -/

@[simp] theorem tree_push (w : Workspace) (tasks : List Task) : (w.push tasks).tree = w.tree := rfl

@[simp] theorem tree_putCell (w : Workspace) (c : CellId) (cell : Cell) :
    (w.putCell c cell).tree = w.tree := rfl

@[simp] theorem tree_record (w : Workspace) (e : Event) : (w.record e).tree = w.tree := rfl

@[simp] theorem tree_dispatch (w : Workspace) (c : CellId) (cell : Cell) (e : Expr) :
    (w.dispatch c cell e).tree = w.tree := rfl

@[simp] theorem tree_advance (w : Workspace) (c : CellId) (cell : Cell) (generation : Nat) :
    (w.advance c cell generation).tree = w.tree := by
  unfold advance
  repeat' split
  all_goals rfl

@[simp] theorem tree_receive (w : Workspace) (id : CommandId) (c : CellId) (outcome : Outcome) :
    (w.receive id c outcome).tree = w.tree := by
  unfold receive
  simp only
  repeat' split
  all_goals rfl

@[simp] theorem tree_batch (w : Workspace) (c : CellId) (cell : Cell) (always : Bool) :
    (w.batch c cell always).tree = w.tree := rfl

@[simp] theorem tree_setScope (w : Workspace) (c : CellId) (cell : Cell) (scope : Option ScopeId) :
    (w.setScope c cell scope).tree = w.tree := by
  unfold setScope
  split <;> rfl

@[simp] theorem tree_answerCommand (w : Workspace) (id : CommandId) (answer : Answer) :
    (w.answerCommand id answer).2.tree = w.tree := by
  unfold answerCommand
  rcases w.commands.take id with ⟨found, commands⟩
  cases found with
  | none => rfl
  | some found => cases answer <;> simp

theorem tree_onHeldCell (w : Workspace) (c : CellId) {f : Cell → Workspace}
    (hf : ∀ cell, (f cell).tree = w.tree) : (w.onHeldCell c f).tree = w.tree := by
  unfold onHeldCell onCell
  split
  · split
    · exact hf _
    · rfl
  · rfl

/-! ### One task -/

section Coherent

variable (h : w.Coherent due)
include h

theorem succeeds_subscribe (handle : HandleRef) (reaction : Nat → SlotValue → List Op) :
    w.tree.Succeeds (w.subscribe handle reaction).tree := by
  unfold subscribe
  simp only
  split
  · split
    · exact .of_rolls (ScopeTree.advances_listenToDefinition h.tied (by simp) _ _ 0).toExtends
        (ScopeTree.sameRolls_modify fun _ => ⟨rfl, rfl, rfl⟩)
    · exact .refl _
  · split
    · rename_i hh hhandle
      have hlent := h.reader (Array.mem_of_getElem? hhandle)
      exact .of_rolls (ScopeTree.advances_listenToReader h.tied (by simp) hlent 0).toExtends
        (ScopeTree.sameRolls_listenToReader _ _ _)
    · exact .refl _

theorem succeeds_letGo (k : SubscriptionId) (ends : Bool) :
    w.tree.Succeeds (w.letGo k ends).tree := by
  unfold letGo
  split
  · exact .refl _
  split
  · simp only
    split
    · split
      · split
        · exact .of_rolls (ScopeTree.advances_ignoreDefinition h.tied _ _ 0).toExtends
            (ScopeTree.sameRolls_modify fun _ => ⟨rfl, rfl, rfl⟩)
        · exact .refl _
      · split
        · exact .of_rolls (ScopeTree.advances_ignoreReader h.tied (by simp) _ _ 0).toExtends
            (ScopeTree.sameRolls_modify fun _ => ⟨rfl, rfl, rfl⟩)
        · exact .refl _
    · exact .refl _
  · exact .refl _

theorem succeeds_write {s : ScopeId} {id : SlotId} (hid : w.tree.LentSlot s id)
    (v : SlotValue) : w.tree.Succeeds (w.write s id v).tree := by
  have hwrite := ScopeTree.succeeds_write h.tied hid v
  unfold write
  simp only
  split <;> exact hwrite

theorem succeeds_operate (op : Op) : w.tree.Succeeds (w.operate op).2.tree := by
  have hsame : ∀ {t}, t = w.tree → w.tree.Succeeds t := by
    rintro t rfl
    exact .refl _
  cases op with
  | child parent name start closed =>
    unfold operate
    simp only
    split
    · exact ScopeTree.succeeds_child h.tied parent name start closed
    · exact .refl _
  | addDefinition s name p =>
    unfold operate
    simp only
    split
    · split
      · rename_i slot readers tree hadd
        exact ScopeTree.succeeds_addDefinition h.tied hadd
      · exact .refl _
    · exact .refl _
  | addReader s name p =>
    unfold operate
    simp only
    split
    · split
      · rename_i reader readers tree hadd
        exact ScopeTree.succeeds_addReader h.tied hadd
      · exact .refl _
    · exact .refl _
  | set n value =>
    unfold operate
    simp only
    split
    · rename_i handle hhandle
      exact succeeds_write h (h.definition (Array.mem_of_getElem? hhandle)) _
    · exact .refl _
  | clear n =>
    unfold operate
    simp only
    split
    · rename_i handle hhandle
      exact succeeds_write h (h.definition (Array.mem_of_getElem? hhandle)) _
    · exact .refl _
  | subscribe handle reaction => exact succeeds_subscribe h handle reaction
  | unsubscribe k => exact succeeds_letGo h k true
  | detach k => exact succeeds_letGo h k false
  | newCell position expression scope automatic => exact hsame (by simp [operate])
  | setScope c scope =>
    refine hsame (tree_onHeldCell w c fun cell => ?_)
    split
    · exact tree_setScope w c cell scope
    · rfl
  | setPosition c position =>
    refine hsame (tree_onHeldCell w c fun cell => ?_)
    split <;> rfl
  | recalculateStale c =>
    refine hsame (tree_onHeldCell w c fun cell => ?_)
    split <;> rfl
  | setExpression c expression => exact hsame (tree_onHeldCell w c fun _ => rfl)
  | setAutomatic c automatic => exact hsame (tree_onHeldCell w c fun _ => rfl)
  | recalculate c => exact hsame (tree_onHeldCell w c fun _ => rfl)
  | dropScope s | dropCell c | ask c name | unreadable e => exact .refl _
  | move handle p | remove handle =>
    cases handle <;>
    · unfold operate
      simp only
      split <;> exact .refl _
  | answer id answer | next | reply text =>
    refine hsame ?_
    unfold operate
    simp only
    repeat' split
    all_goals first | rfl | exact tree_answerCommand ..

theorem succeeds_performCell (c : CellId) (cell : Cell) (task : CellTask) :
    w.tree.Succeeds (w.performCell c cell task).tree := by
  cases task with
  | addOutput s name position =>
    unfold performCell
    simp only
    split
    · exact .refl _
    split
    · exact .refl _
    · rename_i slot readers tree hadd
      exact ScopeTree.succeeds_addDefinition h.tied hadd
  | addInput s name position =>
    unfold performCell
    simp only
    split
    · exact .refl _
    split
    · exact .refl _
    · rename_i reader readers tree hadd
      obtain ⟨ht, hreader⟩ := ScopeTree.advances_addReader h.tied hadd
      refine (ScopeTree.succeeds_addReader h.tied hadd).trans (.of_rolls
        (ScopeTree.advances_listenToReader ht.tied (by simp) hreader s).toExtends ?_)
      exact ScopeTree.sameRolls_listenToReader _ _ _
  | advance generation =>
    show w.tree.Succeeds (w.advance c cell generation).tree
    rw [tree_advance]
    exact .refl _
  | reconsider | synchronize =>
    unfold performCell
    simp only
    split <;> exact .refl _
  | _ => exact .refl _

/-- What a task does to the tree leaves no links over. -/
theorem succeeds_perform
    (hsafe : (∀ s name v, task ≠ .tell (.importer s name) v) → task.Safe w.tree) :
    w.tree.Succeeds (w.perform task).tree := by
  cases task with
  | operate op => exact succeeds_operate h op
  | notifyReaders s readers =>
    cases readers with
    | nil => exact .refl _
    | cons reader rest =>
      unfold perform
      simp only
      split <;> exact .refl _
  | notifyDefinition s slot =>
    unfold perform
    simp only
    split <;> exact .refl _
  | tell listener value =>
    cases listener with
    | importer s name =>
      unfold perform tell
      simp only
      cases hs : w.tree.get? s with
      | none => exact .refl _
      | some scope =>
        refine .of_rolls ?_ (ScopeTree.sameRolls_setImported h.tied s name value)
        obtain ⟨hopened, hclosed⟩ := Bindings.setImported_changes scope.bindings name value
        show w.tree.Extends (w.tree.setImported s name value).2
        rw [ScopeTree.setImported, ScopeTree.update, hs]
        simp only
        rw [ScopeTree.follow_of_nil hopened hclosed]
        exact ScopeTree.extends_setBindings hs
          (Bindings.observed_setImported (h.tied.consistent hs) name value)
    | input c name =>
      unfold perform tell
      simp only
      repeat' split
      all_goals exact .refl _
    | client k =>
      unfold perform tell
      simp only
      split <;> exact .refl _
  | write s slot value => exact succeeds_write h (hsafe (by simp)) value
  | moveDefinition s slot p => exact ScopeTree.succeeds_moveDefinition h.tied s slot p
  | moveReader s reader p => exact ScopeTree.succeeds_moveReader h.tied (hsafe (by simp)) p
  | removeDefinition s slot => exact ScopeTree.succeeds_removeDefinition h.tied s slot
  | removeReader s reader => exact ScopeTree.succeeds_removeReader h.tied (hsafe (by simp))
  | cancel id =>
    unfold perform
    simp only
    split <;> exact .refl _
  | cell c task =>
    unfold perform onCell
    simp only
    split
    · exact succeeds_performCell h c _ task
    · exact .refl _
  | keepDefinition | releaseScope | releaseCell => exact .refl _

end Coherent

theorem succeeds_sweep (h : w.tree.WellTied) : w.tree.Succeeds w.sweep.tree :=
  { (swept_sweep h).recedes.passes 0 with
    reads := fun _ hx => ⟨_, ((enrolled_sweep h (k := .reader)).mp hx).1⟩ }

theorem Ready.succeeds_step (h : w.Ready) : w.tree.Succeeds w.step.tree := by
  cases hagenda : w.agenda with
  | nil =>
    rw [Workspace.step, hagenda]
    exact .refl _
  | cons task rest =>
    rw [step_of_agenda hagenda]
    have hsafe := h.safe hagenda
    refine ScopeTree.Succeeds.trans ?_ (succeeds_sweep (h.perform hagenda).tied)
    cases h with
    | resting coherent => exact succeeds_perform (coherent.pop hagenda) hsafe
    | telling agenda _ coherent =>
      rw [hagenda] at agenda
      cases agenda
      exact succeeds_perform coherent hsafe

/-! ### Runs -/

/-- The scopes that the client holds are there, and every scope but the root has a parent. -/
structure Seated (w : Workspace) : Prop where
  held : ∀ s ∈ w.heldScopes, w.tree.get? s ≠ none
  inside : ∀ {s : ScopeId} {scope : Scope}, w.tree.get? s = some scope →
    (scope.ancestors = [] ↔ s = ScopeTree.rootId)

theorem Seated.perform (h : w.Seated) (htied : w.tree.WellTied) (task : Task) :
    (w.perform task).Seated where
  held _ hs := get?_of_mem_heldScopes_perform h.held task hs
  inside {s scope} hs := by
    by_cases hhouses : ∃ op, task = .operate op ∧ op.Houses
    · obtain ⟨op, rfl, hhouses⟩ := hhouses
      cases op with
      | child parent name start closed =>
        unfold Workspace.perform operate at hs
        simp only at hs
        split at hs
        · rename_i hparent
          obtain ⟨around, haround⟩ :=
            Option.ne_none_iff_exists'.mp (h.held parent (List.contains_iff_mem.mp hparent))
          rw [ScopeTree.get?_child] at hs
          split at hs
          · -- the new scope is inside one that was there
            rename_i hnew
            cases hs
            have hlt : parent < w.tree.nextId := htied.id_lt haround
            have hne : s ≠ ScopeTree.rootId := hnew ▸ Nat.ne_of_gt (Nat.zero_lt_of_lt hlt)
            simp [ScopeTree.inside, haround, hne]
          · exact h.inside hs
        · exact h.inside hs
      | dropScope q => exact h.inside hs
      | _ => exact hhouses.elim
    · have hkeeps := perform_keepsScopes (w := w) fun op htask hop => hhouses ⟨op, htask, hop⟩
      obtain ⟨before, hbefore, -, -, hancestors⟩ := hkeeps.shape.exists_of_get? hs
      rw [← hancestors]
      exact h.inside hbefore

theorem Seated.sweep (h : w.Seated) (htied : w.tree.WellTied) : w.sweep.Seated where
  held s hs hnone := by
    rw [heldScopes_sweep] at hs
    rw [← ScopeTree.shape?_eq_none_iff, shape?_sweep hs, ScopeTree.shape?_eq_none_iff] at hnone
    exact h.held s hs hnone
  inside {s scope} hs := by
    have hswept := swept_sweep htied
    obtain ⟨before, hbefore, honward⟩ := hswept.recedes.exists_of_get? hswept.tied hs
    rw [honward.ancestors]
    exact h.inside hbefore

theorem Reached.seated (h : Reached backend w) : w.Seated := by
  obtain ⟨past, hrun⟩ := h.exists_run
  have hboth : w.Ready ∧ w.Seated := by
    refine hrun.invariant (P := fun _ w => w.Ready ∧ w.Seated) ⟨Reached.start.ready, ?_, ?_⟩ ?_ ?_
    · intro s hs
      rw [List.mem_singleton.mp hs]
      simp [ScopeTree.get?, ScopeTree.root]
    · intro s scope hs
      obtain ⟨rfl, rfl⟩ := get?_root_eq_some hs
      simp
    · intro past w op hw hquiet
      exact ⟨hw.1.call hquiet op, hw.2.held, hw.2.inside⟩
    · intro past w task rest hw _ hagenda
      have hready := hw.1.perform hagenda
      have hpopped : ({ w with agenda := rest } : Workspace).Seated := ⟨hw.2.held, hw.2.inside⟩
      exact ⟨hready.swept (swept_sweep hready.tied) hready.tied,
        (hpopped.perform hw.1.tied task).sweep hready.tied⟩
  exact hboth.2

/-- While the client goes on, no link is left over. -/
theorem Run.succeeds (hready : w.Ready) (h : Run (fun _ => True) w past w') :
    w.tree.Succeeds w'.tree := by
  have hboth : w'.Ready ∧ w.tree.Succeeds w'.tree := by
    induction h with
    | refl => exact ⟨hready, .refl _⟩
    | call op _ hquiet ih => exact ⟨ih.1.call hquiet op, ih.2⟩
    | step _ _ ih => exact ⟨ih.1.step, ih.2.trans ih.1.succeeds_step⟩
  exact hboth.2

/-- In every state of a workspace, also while listeners react, each scope has just the links that it
has to have, and a link that ends, because its name is not in use any more or its scope is dropped,
leaves no reader behind. -/
theorem Reached.linksInStep (h : Reached backend w) : w.tree.LinksInStep ∧
    ∀ past w', Run (fun _ => True) w past w' → ∀ p r s name, w.tree.Feeds p r s name →
      w'.tree.Feeds p r s name ∨ w'.tree.anchor? p r = none := by
  refine ⟨h.ready.tied.inStep h.seated.inside, fun past w' hrun p r s name hfeeds => ?_⟩
  exact (hrun.succeeds h.ready).feeds_or_gone h.ready.tied hfeeds

/-- A reader in the innermost of three scopes makes both inner ones import the name. Its subscriber
lets go of the innermost one as soon as the name is defined in the root: both links are gone, and in
the root only the definition keeps the list. -/
theorem linksInStep_dropped :
    let nested := ((({ backend := .immediate } : Workspace).apply (.child 0 "outer" .origin false)).2.apply
      (.child 1 "inner" .origin false)).2
    let read := ((nested.apply (.addReader 2 "x" .origin)).2.apply
      (.subscribe (.reader 0) fun _ _ => [.dropScope 2])).2
    let w := (read.call (.addDefinition 0 "x" .origin)).settle 20
    read.tree.LinksInStep ∧ read.tree.Feeds 1 1 2 "x" ∧ w.tree.get? 2 = none ∧
      w.tree.anchor? 1 1 = none ∧ (w.tree.get? 1).map (·.imports.isEmpty) = some true ∧
      (w.tree.get? 0).map (·.bindings.slotsOf "x") = some [0, 2] := by
  intro nested read w
  have hnested : Reached .immediate nested :=
    (Reached.start.apply rfl _).apply (by decide +kernel) _
  have hread : Reached .immediate read :=
    (hnested.apply (by decide +kernel) _).apply (by decide +kernel) _
  have hrun : Run (fun _ => True) read ([] ++ read.history) w :=
    (Run.refl.call _ (by decide +kernel)).settle fun _ _ => trivial
  have hpresent : read.tree.get? 2 ≠ none := by decide +kernel
  obtain ⟨inner, hinner⟩ := Option.ne_none_iff_exists'.mp hpresent
  have hlink : (read.tree.get? 2).map (fun scope => (scope.ancestors.head?, scope.imports["x"]?))
      = some (some 1, some 1) := by decide +kernel
  rw [hinner] at hlink
  simp only [Option.map_some, Option.some.injEq, Prod.mk.injEq] at hlink
  have hfeeds : read.tree.Feeds 1 1 2 "x" := ⟨inner, hinner, hlink.1, hlink.2⟩
  have hdropped : w.tree.get? 2 = none :=
    Option.not_isSome_iff_eq_none.mp (by decide +kernel)
  obtain ⟨hinStep, hgone⟩ := hread.linksInStep
  refine ⟨hinStep, hfeeds, hdropped, ?_, by decide +kernel, by decide +kernel⟩
  refine (hgone _ w hrun 1 1 2 "x" hfeeds).resolve_left ?_
  rintro ⟨scope, hscope, -⟩
  rw [hdropped] at hscope
  cases hscope

end Workspace

end MathCanvas
