import MathCanvas.Proofs.Document.Payment
import MathCanvas.Proofs.Workspace.OwnDefinitions

/-!
# A change spreads

While a change spreads from a cell, its agenda is made of tasks that only take values away and of
tasks with prices that cover them (`Workspace.Charged`). The first task pays for what it sets off
(`Workspace.Tariff.pays_perform`), the others keep their prices (`Workspace.Tariff.CoverAll.perform`),
so commands that are dispatched and prices that are still to be paid together never become more
(`Workspace.Charged.step`). A change therefore dispatches no more than it was charged for at its
beginning (`Workspace.Charged.dispatches_settle`).
-/

namespace MathCanvas

namespace Workspace

variable {v w w' : Workspace} {origin d c : CellId} {cell cell' : Cell} {s q : ScopeId}
  {name : String} {x : SlotId} {r : ReaderId} {task : Task} {tasks rest : List Task} {k : Nat}
  {readers : List ReaderId}

namespace Spreading

variable (h : Spreading v origin s w) (hstays : ∀ q r, .removeReader q r ∉ w.agenda)
include h hstays

/-- A cell that is told of a reader has it. -/
theorem has_of_listens {n : String} (hl : .input c n ∈ w.tree.listeners q r)
    (hcell : w.cell? c = some cell) (hawake : cell.suspended = false) : cell.Has n q r .reader := by
  rcases listener_cases h.cascading.secluded (hstays q r) hl ⟨cell, hcell, hawake⟩ with
    ⟨c', n', found, heq, hfound, -, has⟩ | ⟨child, n', scope, heq, -⟩
  · cases heq
    cases hcell.symm.trans hfound
    exact has
  · cases heq

/-- Those who hear of the readers of a definition are heirs of its cell. -/
theorem inherits_of_mem_hearers (hcell : w.cell? c = some cell) (hscope : cell.scope = some s)
    (hx : (x, cell.position) ∈ w.tree.sequence s name)
    (hsource : cell.suspended = true ∨ cell.outputs[name]? ≠ none)
    (hobserve : ∀ r ∈ readers, w.tree.binding? s r = some x) {heir : CellId}
    (hheir : heir ∈ w.hearers s readers) : v.Inherits origin c name heir := by
  obtain ⟨⟨r, hr, n, hl⟩, later, hlater, hawake⟩ := mem_hearers.mp hheir
  have has := h.has_of_listens hstays hl hlater hawake
  exact (h.inherits hcell hlater hawake has hscope hx hsource (hobserve r hr)).2

/-- Nobody hears twice of a definition. -/
theorem nodup_hearers (hcell : w.cell? c = some cell) (hscope : cell.scope = some s)
    (hx : (x, cell.position) ∈ w.tree.sequence s name)
    (hsource : cell.suspended = true ∨ cell.outputs[name]? ≠ none) (hnodup : readers.Nodup)
    (hobserve : ∀ r ∈ readers, w.tree.binding? s r = some x) : (w.hearers s readers).Nodup := by
  rw [hearers, List.filter_flatMap, List.nodup_flatMap]
  refine ⟨fun r _ => ?_, hnodup.imp_of_mem fun {r r'} hr hr' hne heir hheir hheir' => hne ?_⟩
  · -- at most one input listens to each reader
    refine ((List.nodup_iff_count_le_one.mpr fun c => ?_)).filter _
    refine List.count_le_length.trans ?_
    rw [List.length_map]
    exact h.solo s r
  · -- a cell has one reader of a name
    have hreader : ∀ {r}, r ∈ readers → heir ∈ ((w.tree.inputs s r).map (·.1)).filter w.isAwake →
        ∃ later, w.cell? heir = some later ∧ later.Has name s r .reader := by
      intro r hr hheir
      obtain ⟨hlisten, hawake⟩ := List.mem_filter.mp hheir
      obtain ⟨⟨c', n⟩, hinput, rfl⟩ := List.mem_map.mp hlisten
      obtain ⟨later, hlater, hawake⟩ := isAwake_iff.mp hawake
      have has := h.has_of_listens hstays (ScopeTree.mem_inputs_iff.mp hinput) hlater hawake
      obtain ⟨rfl, -⟩ := h.inherits hcell hlater hawake has hscope hx hsource (hobserve r hr)
      exact ⟨later, hlater, has⟩
    obtain ⟨later, hlater, has⟩ := hreader hr hheir
    obtain ⟨later', hlater', has'⟩ := hreader hr' hheir'
    cases hlater.symm.trans hlater'
    exact (has_unique has' has).2

/-- The tariff covers all those who are told of something. -/
theorem priced (t : v.Tariff origin d) : t.Priced s w where
  place hcell hawake has := by
    obtain ⟨g, hbounded⟩ := h.bounded
    obtain ⟨hscope, rfl⟩ := h.scope_eq_of_has hcell has
    obtain ⟨-, y, hy, haims⟩ := hbounded.entry h.cascading.enlisted hcell hawake has
    obtain rfl : y = _ := haims
    exact ⟨hscope, rfl, hy⟩
  observers hcell hscope hx hsource hnodup hobserve :=
    t.heirs_le (h.nodup_hearers hstays hcell hscope hx hsource hnodup hobserve) fun _ hheir =>
      h.inherits_of_mem_hearers hstays hcell hscope hx hsource hobserve hheir
  elsewhere {q} hne readers := by
    refine List.eq_nil_iff_forall_not_mem.mpr fun c hc => ?_
    obtain ⟨⟨r, -, n, hl⟩, cell, hcell, hawake⟩ := mem_hearers.mp hc
    exact hne (h.scope_eq_of_has hcell (h.has_of_listens hstays hl hcell hawake)).2
  input hl hcell hawake := h.has_of_listens hstays hl hcell hawake
  inward {q child r n} hl := by
    rcases listener_cases h.cascading.secluded (hstays q r) hl trivial with
      ⟨c, n', cell, heq, -⟩ | ⟨child', n', scope, heq, hchild, hparent, -⟩
    · cases heq
    · cases heq
      obtain ⟨further, hancestors⟩ := List.head?_eq_some_iff.mp hparent
      exact (h.cascading.enlisted.ready.tied.parent hchild hancestors).1

end Spreading

/-! ### While values are taken away -/

/-- Taking values away dispatches nothing. -/
theorem Clears.dispatches_eq (h : w.Clears task) (hsubscriptions : w.subscriptions = #[])
    (d : CellId) :
    (w.perform task).dispatches d = w.dispatches d := by
  cases task with
  | notifyReaders q readers =>
    cases readers with
    | nil => rfl
    | cons r rest =>
      unfold perform
      simp only
      split <;> rfl
  | notifyDefinition q x =>
    unfold perform
    simp only
    split <;> rfl
  | tell l value =>
    show (w.tell value l).dispatches d = _
    unfold tell
    cases l with
    | importer q n =>
      simp only
      split <;> rfl
    | input c n =>
      simp only
      repeat' split
      all_goals rfl
    | client n => rw [hsubscriptions]; rfl
  | write q x value =>
    show (w.write q x value).dispatches d = _
    unfold write
    simp only
    split <;> rfl
  | cancel id => exact w.dispatches_cancel id d
  | releaseScope | releaseCell => rfl
  | cell c driven =>
    cases hcell : w.cell? c with
    | none => rw [perform_cell_of_none hcell]
    | some cell =>
      rw [perform_cell hcell]
      cases driven with
      | refresh | invalidate | evaluate => rfl
      | reconsider =>
        unfold performCell
        simp only
        split <;> rfl
      | _ => exact h.elim
  | _ => exact h.elim

theorem Clears.passes (h : w.Clears task) : task.passes = true := by
  cases task with
  | notifyReaders q readers => exact Task.passes_notifyReaders q readers
  | notifyDefinition | tell | write | cancel | releaseScope | releaseCell => rfl
  | cell c driven => cases driven <;> first | rfl | exact h.elim
  | _ => exact h.elim

/-! ### While tasks wait -/

namespace Tariff

variable {t : v.Tariff origin d}

/-- Definitions do not move, and none is added before those that are to go. -/
theorem Covers.mem_sequence (h : t.Covers s w task k) (htied : w.tree.WellTied)
    (hrank : task.rank = .shift) {n : String} {a : SlotId × Position}
    (ha : a ∈ (w.perform task).tree.sequence q n) : a ∈ w.tree.sequence q n := by
  have hconsistent : w.tree.Consistent := htied.allConsistent
  have hevolved : ∀ {tree : ScopeTree}, w.tree.Evolves Bindings.SameSequences tree →
      a ∈ tree.sequence q n → a ∈ w.tree.sequence q n := by
    intro tree hevolves ha
    rcases hevolves.sequence_or q n with heq | hnone
    · rwa [heq] at ha
    · rw [ScopeTree.sequence_of_none hnone] at ha
      cases ha
  cases task with
  | removeReader p r =>
    exact hevolved (ScopeTree.evolves_removeReader indifferent_sameSequences hconsistent p r) ha
  | moveReader p r y =>
    exact hevolved (ScopeTree.evolves_moveReader indifferent_sameSequences hconsistent p r y) ha
  | removeDefinition p x =>
    exact ((ScopeTree.quits_removeDefinition htied p x).enrolled (k := .definition)).mp ha |>.1
  | moveDefinition p x y =>
    have hshifts := ScopeTree.shifts_moveDefinition htied p x y
    have ha : (w.tree.moveDefinition p x y).2.Enrolled q a.1 n a.2 .definition := ha
    by_cases hself : q = p ∧ a.1 = x
    · obtain ⟨rfl, rfl⟩ := hself
      -- it stood there before, and its place is the same
      obtain ⟨old, hold⟩ := hshifts.back ha
      have hsame := ScopeTree.sequence_moveDefinition_of_same hconsistent hold (h n old hold) q n
      rw [ScopeTree.enrolled_definition, hsame] at ha
      exact ha
    · exact (hshifts.others fun heq => hself heq.2).mp ha
  | cell c driven => cases driven <;> cases hrank
  | _ => cases hrank

/-- The tasks that wait keep their prices. -/
theorem CoverAll.perform {prices : List Nat} {g : Grading} {height : Height}
    (hrest : t.CoverAll s w w.agenda prices) (h : t.Covers s w task k)
    (hunder : w.Under g task height) (hphased : Phased (task :: w.agenda))
    (hqueued : Queued (task :: w.agenda)) (hcalm : ∀ op, .operate op ∉ w.agenda)
    (hsubscriptions : w.subscriptions = #[]) (hprompt : w.backend.Prompt)
    (htied : w.tree.WellTied) : t.CoverAll s (w.perform task) w.agenda prices := by
  refine hrest.imp_of_mem fun {later k'} hlater hcovers => ?_
  have hshift : task.phase = .leave ∨ task.phase = .enroll → later.rank = .shift →
      task.rank = .shift := by
    intro hphase hrank
    have hbefore := (queued_cons.mp hqueued).1 later hlater
    rw [hrank] at hbefore
    cases hhead : task.rank with
    | shift => rfl
    | idle =>
      cases task with
      | cell c driven => cases driven <;> rcases hphase with hphase | hphase <;> cases hphase <;>
          cases hhead
      | notifyReaders q readers =>
        cases readers <;> rcases hphase with hphase | hphase <;> cases hphase
      | _ => rcases hphase with hphase | hphase <;> cases hphase <;> cases hhead
    | _ =>
      rw [hhead] at hbefore
      cases hbefore
  have henroll : task.enrolls = true → t.Covers s (w.perform task) later k' := by
    intro htask
    have hphase : task.phase = .leave ∨ task.phase = .enroll := by
      simpa [Task.enrolls] using htask
    refine hcovers.enroll (hphased.ne_talk (Task.passes_of_enrolls htask) hlater) fun hrank => ?_
    have hreserves := reserves_perform htask hunder
    exact ⟨fun hsuspended => hsuspended.reserve hreserves,
      fun ha => h.mem_sequence htied (hshift hphase hrank) ha⟩
  -- values that are passed on take nobody's place, and who is enrolled passes nothing on
  cases hphase : task.phase with
  | talk | release =>
    have hpasses : task.passes = true := by rw [Task.passes, hphase]; rfl
    exact hcovers.wane (wanes_perform hsubscriptions hprompt htied hpasses fun op heq => by
      subst heq
      exact hunder.answers) fun op heq => hcalm op (heq ▸ hlater)
  | leave | enroll => exact henroll (by rw [Task.enrolls, hphase]; rfl)
  | close =>
    -- only references are left to be given up
    have hrelease := hphased.release hphase hlater
    refine hcovers.enroll (by rw [hrelease]; rintro ⟨⟩) fun hrank => ?_
    cases later with
    | cell c driven => cases driven <;> cases hrelease
    | _ => first | cases hrelease; done | cases hrank

end Tariff

/-! ### Steps -/

theorem dispatches_sweep (w : Workspace) (d : CellId) : w.sweep.dispatches d = w.dispatches d := by
  obtain ⟨cells, tree, heq, -⟩ := w.exists_sweep_eq
  rw [heq]
  rfl

/-- While no cell goes to another scope, the cells stay as they were, up to values. -/
theorem Resembles.step {backend : Backend} {may : Workspace → Op → Prop} {deeds : List Deed}
    (h : v.Resembles w) (hw : w.Cascading) (hchronicle : Chronicle backend may deeds w)
    (hprompt : backend.Prompt) (hagenda : w.agenda = task :: rest)
    (hop : ∀ op, task = .operate op → op.Answers)
    (henter : ∀ c scope, task ≠ .cell c (.enter scope)) : v.Resembles w.step := by
  rw [step_of_agenda hagenda]
  constructor
  · intro c cell' hcell'
    obtain ⟨cells, tree, heq, hcells⟩ :=
      (({ w with agenda := rest } : Workspace).perform task).exists_sweep_eq
    rw [heq] at hcell'
    have hbefore := hcells hcell'
    obtain ⟨cell, hcell, hposition, hscope⟩ := seat_perform hop hbefore
    obtain ⟨first, hfirst, hposition', hscope', hblanked⟩ := h.cells hcell
    have hkept := hchronicle.blanked_perform hprompt hagenda hcell hbefore fun e heq => hop _ heq
    exact ⟨first, hfirst, hposition.trans hposition',
      (hscope fun scope => henter c scope).trans hscope', hkept.trans hblanked⟩
  · intro c hpresent
    have hthere : (({ w with agenda := rest } : Workspace).perform task).cell? c ≠ none :=
      cell?_perform_ne_none hw.secluded.subscriptions hw.secluded.prompt (h.present hpresent)
    obtain ⟨cell, hcell⟩ := Option.ne_none_iff_exists'.mp hthere
    rw [cell?_sweep_of_held (hw.held_after hop hthere) hcell]
    rintro ⟨⟩

/-- A change in progress that spreads from the cell `origin`. What it only takes away stands in front
on the agenda, and prices that cover the rest add up to `k` at most. -/
structure Charged (backend : Backend) (t : v.Tariff origin d) (s : ScopeId) (k : Nat)
    (w : Workspace) : Prop where
  chronicle : ∃ deeds, Chronicle backend (fun _ _ => True) deeds w
  cascading : w.Cascading
  cascade : ∃ g heights, w.Cascade g heights w.agenda
  resembles : v.Resembles w
  covered : ∃ front back prices, w.agenda = front ++ back ∧ (∀ task ∈ front, w.Clears task) ∧
    t.CoverAll s w back prices ∧ prices.sum ≤ k

section Charged

variable {backend : Backend} {t : v.Tariff origin d}

namespace Charged

variable (himmediate : backend.Immediate)
  (hhoused : ∀ {c : CellId} {cell : Cell} {q : ScopeId}, v.cell? c = some cell →
    cell.scope = some q → q = s)
  (h : Charged backend t s k w)

/-- A task on the agenda is covered, or only takes values away. -/
theorem covers_or_clears {w : Workspace} (h : Charged backend t s k w) (hmem : task ∈ w.agenda) :
    w.Clears task ∨ ∃ k, t.Covers s w task k := by
  obtain ⟨front, back, prices, hagenda, hfront, hback, -⟩ := h.covered
  rw [hagenda] at hmem
  rcases List.mem_append.mp hmem with hmem | hmem
  · exact .inl (hfront task hmem)
  · exact .inr (hback.exists_covers hmem)

include h

/-- A task that takes values away puts only such tasks on the agenda, and the others keep their
prices. -/
theorem exists_clears_perform {front back : List Task} {prices : List Nat}
    (hagenda : w.agenda = task :: (front ++ back)) (hclears : w.Clears task)
    (hfront : ∀ later ∈ front, w.Clears later) (hback : t.CoverAll s w back prices) :
    ∃ front',
      (({ w with agenda := front ++ back } : Workspace).perform task).agenda = front' ++ back ∧
      (∀ later ∈ front',
        (({ w with agenda := front ++ back } : Workspace).perform task).Clears later) ∧
      t.CoverAll s (({ w with agenda := front ++ back } : Workspace).perform task) back prices ∧
      (({ w with agenda := front ++ back } : Workspace).perform task).dispatches d =
        w.dispatches d := by
  obtain ⟨g, heights, hcascade⟩ := h.cascade
  have hsecluded := h.cascading.secluded
  have htied : w.tree.WellTied := hsecluded.ready.tied
  have hcalm := hcascade.called
  rw [hagenda] at hcalm
  let u : Workspace := { w with agenda := front ++ back }
  have hhead : u.Clears task := hclears
  have hattuned : u.Attuned (task :: u.agenda) := by
    have hbefore := hsecluded.attuned
    rw [hagenda] at hbefore
    exact ⟨hbefore.silent, hbefore.numbered, hbefore.current⟩
  have hdrains : u.Drains (u.perform task) := Drains.perform hhead htied.allConsistent
    hsecluded.subscriptions h.cascading.immediate.onCancel hattuned
  have hwanes : u.Wanes (u.perform task) := wanes_perform hsecluded.subscriptions hsecluded.prompt
    htied hhead.passes (hcascade.answers hagenda)
  obtain ⟨tasks, htasks, hnew⟩ := hdrains.agenda
  refine ⟨tasks ++ front, ?_, fun later hlater => ?_, ?_, ?_⟩
  · rw [htasks, List.append_assoc]
  · rcases List.mem_append.mp hlater with hlater | hlater
    · exact hnew later hlater
    · have hbefore : u.Clears later := hfront later hlater
      exact hbefore.fade hdrains.toFades
  · refine hback.imp_of_mem fun {later k'} hlater hcovers => ?_
    have hbefore : t.Covers s u later k' := hcovers
    exact hbefore.wane hwanes fun op heq => hcalm op (heq ▸ List.mem_append_right _ hlater)
  · exact hhead.dispatches_eq hsecluded.subscriptions d

include himmediate hhoused

theorem spreading : Spreading v origin s w := by
  obtain ⟨deeds, hchronicle⟩ := h.chronicle
  obtain ⟨hsecluded, -, past, hrun⟩ := hchronicle.exists_run himmediate.prompt
  refine ⟨h.cascading, hchronicle.supplies himmediate.prompt, hrun.solo, ?_, h.resembles,
    fun {c cell} hcell hne => ?_, fun {c cell q} hcell hscope => ?_, fun c scope hmem => ?_⟩
  · obtain ⟨g, heights, hcascade⟩ := h.cascade
    exact ⟨g, fun task hmem => hcascade.exists_under hmem⟩
  · refine (hsecluded.batched c).not_suspended (fun always hmem => hne ?_) hcell
    rcases h.covers_or_clears hmem with hclears | ⟨k', hcovers⟩
    · exact hclears.elim
    · exact hcovers.1
  · obtain ⟨first, hfirst, -, hseat, -⟩ := h.resembles.cells hcell
    exact hhoused hfirst (hseat ▸ hscope)
  · rcases h.covers_or_clears hmem with hclears | ⟨k', hcovers⟩
    · exact hclears
    · exact hcovers

/-- A task pays for what it sets off, and the others keep their prices. -/
theorem exists_pays_perform {k' : Nat} {prices : List Nat} (hagenda : w.agenda = task :: rest)
    (hcovers : t.Covers s w task k') (hrest : t.CoverAll s w rest prices) :
    ∃ front back prices',
      (({ w with agenda := rest } : Workspace).perform task).agenda = front ++ back ∧
      (∀ later ∈ front, (({ w with agenda := rest } : Workspace).perform task).Clears later) ∧
      t.CoverAll s (({ w with agenda := rest } : Workspace).perform task) back prices' ∧
      (({ w with agenda := rest } : Workspace).perform task).dispatches d + prices'.sum ≤
        w.dispatches d + (k' + prices.sum) := by
  obtain ⟨deeds, hchronicle⟩ := h.chronicle
  obtain ⟨g, heights, hcascade⟩ := h.cascade
  have hsecluded := h.cascading.secluded
  have htied : w.tree.WellTied := hsecluded.ready.tied
  have hqueued := (hchronicle.posted himmediate.prompt).queued
  obtain ⟨height, hunder⟩ := hcascade.exists_under (hagenda ▸ List.mem_cons_self)
  have hphased := hcascade.phased
  have hcalm := hcascade.called
  rw [hagenda] at hqueued hphased hcalm
  let u : Workspace := { w with agenda := rest }
  have hhead : t.Covers s u task k' := hcovers
  have hothers : t.CoverAll s u u.agenda prices := hrest
  have hunder' : u.Under g task height := hunder
  have hpays : t.Pays s u k' (u.perform task) := by
    refine Tariff.pays_perform hsecluded.subscriptions h.cascading.immediate htied
      hsecluded.attuned.silent ⟨h.resembles.cells, h.resembles.present⟩ hunder' (fun hphase => ?_)
      hhead
    have hstays : ∀ q r, .removeReader q r ∉ w.agenda := by
      rw [hagenda]
      exact hphased.not_removeReader hphase
    have hpriced := (h.spreading himmediate hhoused).priced hstays t
    exact ⟨hpriced.place, hpriced.observers, hpriced.elsewhere, hpriced.input, hpriced.inward⟩
  obtain ⟨front, back, prices', htasks, hclears, hnew, hle⟩ := hpays
  have hkept := hothers.perform hhead hunder' hphased hqueued hcalm hsecluded.subscriptions
    hsecluded.prompt htied
  refine ⟨front, back ++ rest, prices' ++ prices, htasks, hclears, List.rel_append hnew hkept, ?_⟩
  have hsame : u.dispatches d = w.dispatches d := rfl
  show (u.perform task).dispatches d + _ ≤ _
  rw [List.sum_append]
  omega

/-- What a task dispatches and what is to be paid afterwards were to be paid before. -/
theorem exists_covered_perform (hagenda : w.agenda = task :: rest) :
    ∃ front back prices,
      (({ w with agenda := rest } : Workspace).perform task).agenda = front ++ back ∧
      (∀ later ∈ front, (({ w with agenda := rest } : Workspace).perform task).Clears later) ∧
      t.CoverAll s (({ w with agenda := rest } : Workspace).perform task) back prices ∧
      (({ w with agenda := rest } : Workspace).perform task).dispatches d + prices.sum ≤
        w.dispatches d + k := by
  obtain ⟨front, back, prices, hparts, hfront, hback, hsum⟩ := h.covered
  have htasks := hagenda.symm.trans hparts
  cases front with
  | cons first front =>
    obtain ⟨rfl, rfl⟩ := List.cons.inj htasks
    obtain ⟨front', hagenda', hclears, hkept, hdispatches⟩ := h.exists_clears_perform
      hagenda (hfront task List.mem_cons_self)
      (fun later hlater => hfront later (List.mem_cons_of_mem _ hlater)) hback
    exact ⟨front', back, prices, hagenda', hclears, hkept,
      hdispatches ▸ Nat.add_le_add_left hsum _⟩
  | nil =>
    obtain rfl : task :: rest = back := htasks
    obtain ⟨k', prices, hhead, hrest, rfl⟩ := List.forall₂_cons_left_iff.mp hback
    obtain ⟨front, back, prices', hagenda', hclears, hcovers, hle⟩ :=
      h.exists_pays_perform himmediate hhoused hagenda hhead hrest
    rw [List.sum_cons] at hsum
    exact ⟨front, back, prices', hagenda', hclears, hcovers,
      hle.trans (Nat.add_le_add_left hsum _)⟩

/-- After a step, what is still to be paid and what was dispatched are no more than before. -/
theorem step (hagenda : w.agenda = task :: rest) :
    ∃ k', Charged backend t s k' w.step ∧ w.step.dispatches d + k' ≤ w.dispatches d + k := by
  obtain ⟨deeds, hchronicle⟩ := h.chronicle
  obtain ⟨g, heights, hcascade⟩ := h.cascade
  obtain ⟨hcascading, g', heights', hcascade', -⟩ := h.cascading.exists_cascade_step hagenda hcascade
  obtain ⟨front, back, prices, hparts, hfront, hback, hle⟩ :=
    h.exists_covered_perform himmediate hhoused hagenda
  have hop := hcascade.answers hagenda
  have hresembles := h.resembles.step h.cascading hchronicle himmediate.prompt hagenda hop
    fun c scope heq => (h.spreading himmediate hhoused).settled c scope
      (by rw [hagenda, heq]; exact List.mem_cons_self)
  have htied : (({ w with agenda := rest } : Workspace).perform task).tree.WellTied :=
    (h.cascading.secluded.ready.perform hagenda).tied
  have hstep := step_of_agenda hagenda
  refine ⟨prices.sum, ⟨⟨_, hchronicle.step hagenda⟩, hcascading, ⟨g', heights', hcascade'⟩,
    hresembles, front, back, prices, ?_, fun later hlater => ?_, ?_, Nat.le_refl _⟩, ?_⟩
  · rw [hstep, sweep_agenda, hparts]
  · rw [hstep]
    exact (hfront later hlater).fade (fades_sweep _)
  · rw [hstep]
    exact hback.imp_of_mem fun _ hcovers => hcovers.sweep htied fun hcell =>
      h.cascading.held_after hop hcell
  · rw [hstep, dispatches_sweep]
    exact hle

end Charged

/-- A change never dispatches more than it was charged for. -/
theorem Charged.dispatches_settle (himmediate : backend.Immediate)
    (hhoused : ∀ {c : CellId} {cell : Cell} {q : ScopeId}, v.cell? c = some cell →
      cell.scope = some q → q = s) (n : Nat) : ∀ {k : Nat} {w : Workspace},
    Charged backend t s k w → (w.settle n).dispatches d ≤ w.dispatches d + k := by
  induction n with
  | zero =>
    intro k w _
    rw [settle]
    exact Nat.le_add_right _ _
  | succ n ih =>
    intro k w h
    cases hagenda : w.agenda with
    | nil =>
      rw [settle_of_quiet hagenda]
      exact Nat.le_add_right _ _
    | cons task rest =>
      obtain ⟨k', hstep, hle⟩ := h.step himmediate hhoused hagenda
      rw [settle_succ hagenda]
      exact (ih hstep).trans hle

end Charged

end Workspace

end MathCanvas
