import MathCanvas.Proofs.Workspace.Informed

/-!
# Well-kept workspaces

A workspace is `WellKept` if what cells have is theirs alone and is in its place, if the cells rest
while they are brought in step, and if they are informed about their inputs. It stays so as long as
operations that are set off by others only write definitions or answer commands (`WellKept.step`).

In a well-kept workspace what a cell has keeps its value until a task writes it
(`WellKept.outputValue_step`), and only tasks that rouse the cell put such a task on the agenda
(`WellKept.not_write_mem`).
-/

namespace MathCanvas

namespace ScopeTree

variable {t : ScopeTree} {s : ScopeId} {x : Nat} {name : String} {y : Position} {u v : SlotValue}

theorem exists_holds_of_enrolled (h : t.Enrolled s x name y .definition) :
    ∃ v, t.Holds s x v := by
  obtain ⟨scope, hs⟩ := Option.ne_none_iff_exists'.mp h.get?_ne_none
  rw [enrolled_definition, sequence_of_get? hs] at h
  obtain ⟨-, hplace⟩ := Bindings.mem_sequence_iff.mp h
  obtain ⟨slot, hslot, -⟩ := Option.map_eq_some_iff.mp hplace
  exact ⟨slot.value, scope, hs, by rw [Bindings.value?, hslot, Option.map_some], by simp [hplace]⟩

theorem exists_readerValue?_of_enrolled (hb : t.Consistent) (h : t.Enrolled s x name y .reader) :
    ∃ v, t.readerValue? s x = some v := by
  obtain ⟨scope, hs⟩ := Option.ne_none_iff_exists'.mp h.get?_ne_none
  obtain ⟨hanchor, -⟩ := h
  rw [anchor?_of_get? hs] at hanchor
  obtain ⟨v, hv⟩ := (hb hs).exists_readerValue? hanchor
  exact ⟨v, by rw [readerValue?, hs, Option.bind_some, hv]⟩

/-- A definition that is written stands at the value. -/
theorem same_of_holds_write (h : t.Consistent) (hv : (t.write s x u).2.2.Holds s x v) :
    v.same u := by
  unfold write at hv
  cases hs : t.get? s with
  | none =>
    rw [hs] at hv
    obtain ⟨scope, hscope, -⟩ := hv
    cases hs.symm.trans hscope
  | some scope =>
    rw [hs] at hv
    obtain ⟨scope', hscope', hvalue, -⟩ := hv
    rcases (get?_modify_eq_some_iff hs).mp hscope' with ⟨-, rfl⟩ | ⟨hne, -⟩
    swap
    · exact absurd rfl hne
    have hwritten : (scope.bindings.setValue x u).2.value? x = some v := hvalue
    rw [Bindings.value?_setValue (h hs), if_pos rfl] at hwritten
    obtain ⟨before, -, rfl⟩ := Option.map_eq_some_iff.mp hwritten
    unfold Outline.written
    split
    · exact SlotValue.same_of_valueEq ‹_›
    · exact SlotValue.same_refl u

end ScopeTree

/-- A cell that has nothing but what it wants is in step. -/
theorem Cell.lookup_inStep {cell : Cell}
    (h : ∀ {name : String} {k : Role}, (∃ s x, cell.Has name s x k) → name ∈ cell.wants k) :
    (∀ name : String, cell.inStep.outputs[name]? = cell.outputs[name]?) ∧
      ∀ name : String, cell.inStep.inputs[name]? = cell.inputs[name]? := by
  refine ⟨fun name => Option.ext fun o => ?_, fun name => Option.ext fun i => ?_⟩
  · refine lookup_ofList_filter_eq_some_iff.trans (and_iff_left_of_imp fun ho => ?_)
    have has : cell.Has name o.scope o.slot .definition := ho
    exact List.contains_iff_mem.mpr (h ⟨_, _, has⟩)
  · refine lookup_ofList_filter_eq_some_iff.trans (and_iff_left_of_imp fun hi => ?_)
    exact List.contains_iff_mem.mpr (h ⟨_, _, Cell.has_reader_iff.mpr ⟨i, hi, rfl, rfl⟩⟩)

namespace Workspace

variable {w : Workspace} {backend : Backend} {may : Workspace → Op → Prop} {deeds : List Deed}
  {c : CellId} {cell cell' : Cell} {name : String} {i : CellInput} {o : CellOutput} {task : Task}
  {rest : List Task}

/-- A cell takes note of news only while it is suspended. -/
theorem Run.not_dirty {may : Workspace → Prop} {past : List Event} (h : Run may { backend } past w)
    (hcell : w.cell? c = some cell) (hawake : cell.suspended = false) : cell.dirty = false := by
  suffices hall : w.Ready ∧ ∀ cell, w.cell? c = some cell → cell.suspended = false →
      cell.dirty = false from hall.2 cell hcell hawake
  refine h.invariant (P := fun _ w => w.Ready ∧ ∀ cell, w.cell? c = some cell →
      cell.suspended = false → cell.dirty = false) ⟨Reached.start.ready, fun cell hcell => ?_⟩
    (fun _ w op hw hquiet => ⟨hw.1.call hquiet op, hw.2⟩)
    fun past w task rest hw _ hagenda =>
      ⟨step_of_agenda hagenda ▸ hw.1.step, fun cell hcell hawake => ?_⟩
  · simp [cell?] at hcell
  have hfound := (swept_sweep (hw.1.perform hagenda).tied).cell hcell
  by_cases hmakes : ({ w with agenda := rest } : Workspace).Makes c task
  · obtain ⟨rfl, position, expression, scope, automatic, rfl⟩ := hmakes
    obtain ⟨generation, rfl⟩ := cell?_newCell hfound
    rfl
  obtain ⟨old, hold⟩ := Option.ne_none_iff_exists'.mp
    ((perform_turn hmakes).numbered.2 (by rw [hfound]; exact Option.some_ne_none _))
  have hkept : old.suspended = false → old.dirty = false := hw.2 old hold
  cases perform_alters hold hmakes hfound with
  | told => exact Bool.or_eq_false_iff.mpr ⟨hkept hawake, hawake⟩
  | evaluate =>
    rw [(old.begin_batch _).1] at hawake
    rw [(old.begin_batch _).2]
    exact hkept hawake
  | endBatch outer =>
    cases outer with
    | true => cases hawake
    | false => rfl
  | enter | edit | move => cases hawake
  | _ => exact hkept hawake

/-- What cells have is theirs, in its place, and known to them, up to what the tasks on the agenda
are going to do about it. -/
structure WellKept (w : Workspace) : Prop where
  ready : w.Ready
  numbered : ∀ {c : CellId} {cell : Cell}, w.cell? c = some cell → c < w.nextCell
  solo : w.tree.Solo
  apportioned : w.Apportioned w.agenda
  attuned : w.Attuned w.agenda
  posted : w.Posted w.agenda
  supplies : w.Supplies w.agenda
  batched : ∀ c, w.Batched c w.agenda
  resting : ∀ c, w.Resting c w.agenda
  informed : w.Informed w.agenda

namespace WellKept

theorem start (backend : Backend) : ({ backend } : Workspace).WellKept where
  ready := Reached.start.ready
  numbered hcell := by simp [cell?] at hcell
  solo := (.refl : Run (fun _ => True) { backend } [] { backend }).solo
  apportioned := .start backend
  attuned := attuned_root
  posted := .start backend
  supplies c cell hcell := by simp [cell?] at hcell
  batched c := .of_countP rfl fun cell hcell => by simp [cell?] at hcell
  resting c := .of_none rfl
  informed := .start backend

theorem call (h : w.WellKept) (hquiet : w.agenda = []) (op : Op) : (w.call op).WellKept where
  ready := h.ready.call hquiet op
  numbered := h.numbered
  solo := h.solo
  apportioned := h.apportioned.call op
  attuned := h.attuned.call hquiet op
  posted := h.posted.call hquiet op
  supplies := h.supplies.call hquiet op
  batched c := (h.batched c).call hquiet op
  resting c := .of_none (by simp [Workspace.call, Task.equips])
  informed := h.informed.call hquiet op

/-- Every step leaves the workspace well-kept, if cells keep their expressions up to results and
nobody answers a command but those to whom it is given. -/
theorem step (h : w.WellKept) (hagenda : w.agenda = task :: rest)
    (hop : ∀ op, task = .operate op →
      op.Writes ∨ (∃ id answer, op = .answer (some id) answer) ∨ rest = [])
    (hblanked : ∀ {c cell cell'}, w.cell? c = some cell →
      (({ w with agenda := rest } : Workspace).perform task).cell? c = some cell' →
      (∀ e, task ≠ .operate (.setExpression c e)) →
      cell'.expression.blanked = cell.expression.blanked)
    (hunanswered : ∀ c cell id, w.cell? c = some cell → cell.active = some id →
      rest.any (Task.replies id) = false →
      (({ w with agenda := rest } : Workspace).perform task).agenda.any (Task.replies id) = false) :
    w.step.WellKept := by
  have hcalm : ∀ op, task = .operate op → op.enlists = false ∨ rest = [] := by
    intro op heq
    rcases hop op heq with hwrites | ⟨id, answer, rfl⟩ | hquiet
    · exact .inl hwrites.enlists
    · exact .inl rfl
    · exact .inr hquiet
  let v : Workspace := { w with agenda := rest }
  have hafter : (v.perform task).Ready := h.ready.perform hagenda
  have htied : v.tree.WellTied := h.ready.tied
  have hposted' : w.step.Posted w.step.agenda := h.posted.step hagenda h.ready h.apportioned hcalm
  obtain ⟨due, hcoherent⟩ := h.ready.coherent hagenda
  have hposted := h.posted
  have hattuned := h.attuned
  have hinformed := h.informed
  have hsupplies := h.supplies
  rw [hagenda] at hposted hattuned hinformed hsupplies
  have hposted : v.Posted (task :: v.agenda) := hposted.of_same rfl rfl rfl rfl
  have hattuned : v.Attuned (task :: v.agenda) :=
    ⟨hattuned.silent, hattuned.numbered, hattuned.current⟩
  refine ⟨h.ready.step, ?_, ?_, h.apportioned.step h.ready, ?_, hposted', ?_, fun c => ?_,
    fun c => ?_, ?_⟩
  · rw [step_of_agenda hagenda]
    exact sweep_numbered (perform_numbered (w := v) h.numbered task)
  · rw [step_of_agenda hagenda]
    exact solo_sweep (solo_perform (w := v) h.solo htied task)
  · rw [step_of_agenda hagenda]
    exact (hattuned.perform h.numbered hcalm).sweep
  · have hsupplies : v.Supplies (task :: v.agenda) := hsupplies.of_tasks rfl fun _ => .rfl
    rw [step_of_agenda hagenda]
    exact (hsupplies.perform htied hposted hblanked).sweep
  · have hbatched := h.batched c
    rw [hagenda] at hbatched
    have hbatched : v.Batched c (task :: v.agenda) :=
      ⟨hbatched.once, hbatched.outermost, hbatched.suspended⟩
    rw [step_of_agenda hagenda]
    exact (hbatched.perform hcalm).sweep
  · have hresting := h.resting c
    rw [hagenda] at hresting
    have hresting : v.Resting c (task :: v.agenda) :=
      ⟨hresting.apart, hresting.suspended, hresting.unanswered⟩
    rw [step_of_agenda hagenda]
    exact (hresting.perform hop htied hposted (hunanswered c)).sweep
  · have hinformed : v.Informed (task :: v.agenda) := hinformed.of_same rfl rfl rfl
    rw [step_of_agenda hagenda] at hposted' ⊢
    exact (hinformed.perform hcoherent (h.ready.safe hagenda) hattuned hposted h.solo).sweep hafter
      hposted'

/-! ### Inputs -/

/-- What an input of a cell observes is there to be observed. -/
theorem readerValue?_input (h : w.WellKept) (hcell : w.cell? c = some cell)
    (hi : cell.inputs[name]? = some i) :
    w.tree.readerValue? i.scope i.reader = some (w.inputValue i) := by
  obtain ⟨-, y, hy, -⟩ := h.posted.entry hcell (Cell.has_reader_iff.mpr ⟨i, hi, rfl, rfl⟩)
  obtain ⟨v, hv⟩ := ScopeTree.exists_readerValue?_of_enrolled h.ready.tied.allConsistent hy
  rw [hv]
  exact congrArg some (congrArg (Option.getD · _) hv).symm

/-- When no notice is on the agenda, a cell remembers what its inputs observe. -/
theorem last_same (h : w.WellKept) (hnotice : ∀ s readers, .notifyReaders s readers ∉ w.agenda)
    (htell : ∀ l v, .tell l v ∉ w.agenda) (hcell : w.cell? c = some cell)
    (hi : cell.inputs[name]? = some i) : i.last.same (w.inputValue i) :=
  h.informed.last_same hnotice htell hcell hi (h.readerValue?_input hcell hi)

/-- A cell has what is to be added to it, if it has what it wants. -/
theorem mem_wants_of_grants {driven : CellTask} {k : Role} (h : w.WellKept)
    (hagenda : w.agenda = .cell c driven :: rest) (hgrants : driven.grants? = some (name, k))
    (hcell : w.cell? c = some cell) (hattached : cell.scope ≠ none) : name ∈ cell.wants k := by
  have hqueued := h.posted.queued
  rw [hagenda] at hqueued
  have hrank : (Task.cell c driven).rank = .add ∨ (Task.cell c driven).rank = .keep := by
    cases driven with
    | addOutput | addInput => exact .inl rfl
    | keepOutput => exact .inr rfl
    | _ => cases hgrants
  have hmem : .cell c driven ∈ w.agenda := hagenda ▸ List.mem_cons_self
  refine ((h.supplies c cell hcell).resolve_left ?_ hattached name k).mpr
    (.inr ⟨driven, hmem, hgrants⟩)
  rintro ⟨next, hnext, hturn⟩
  rw [hagenda] at hnext
  rcases List.mem_cons.mp hnext with heq | hlater
  · rw [heq] at hturn
    simp [hturn] at hrank
  · have hranks := hqueued.rank_of_add hrank hlater
    simp [hturn] at hranks

/-! ### Outputs -/

/-- What a definition of a cell stands at after a step is what it stood at when the task was done. -/
theorem exists_holds_perform (h : w.WellKept) (hagenda : w.agenda = task :: rest)
    (hposted : w.step.Posted w.step.agenda) (hcell : w.cell? c = some cell)
    (ho : cell.outputs[name]? = some o) (hcell' : w.step.cell? c = some cell')
    (ho' : cell'.outputs[name]? = some o) : ∃ v, w.step.outputValue o = v ∧
      (({ w with agenda := rest } : Workspace).perform task).tree.Holds o.scope o.slot v ∧
        w.tree.Given o.scope o.slot := by
  obtain ⟨-, y, hy, -⟩ := hposted.entry hcell' (k := .definition) ho'
  obtain ⟨v, hv⟩ := ScopeTree.exists_holds_of_enrolled hy
  refine ⟨v, hv.value_eq, ?_, ((h.ready.safe_cell hcell).output ho).given⟩
  rw [step_of_agenda hagenda] at hv hcell'
  have hafter := h.ready.perform hagenda
  exact ((spares_sweep hafter.tied.allConsistent).subsides.definition hv).resolve_right
    fun hnew => hnew.2
      ((hafter.safe_cell ((swept_sweep hafter.tied).cell hcell')).output ho').given

/-- A definition of a cell keeps its value in a step that does not write it. -/
theorem outputValue_step (h : w.WellKept) (hagenda : w.agenda = task :: rest)
    (hposted : w.step.Posted w.step.agenda) (hcell : w.cell? c = some cell)
    (ho : cell.outputs[name]? = some o) (hcell' : w.step.cell? c = some cell')
    (ho' : cell'.outputs[name]? = some o) (hwrite : ∀ v, task ≠ .write o.scope o.slot v) :
    w.step.outputValue o = w.outputValue o := by
  obtain ⟨u, hvalue, hu, hgiven⟩ := h.exists_holds_perform hagenda hposted hcell ho hcell' ho'
  have hbefore := holds_perform (w := { w with agenda := rest }) h.ready.tied.allConsistent hgiven
    hwrite (fun handle hhandle hsame => ?_) hu
  · exact hvalue.trans hbefore.value_eq.symm
  · have has : cell.Has name handle.scope handle.slot .definition := by
      rw [hsame.1, hsame.2]
      exact ho
    exact Posted.not_has_definition h.apportioned hhandle hcell has

/-- A definition of a cell that is written takes the value. -/
theorem outputValue_write (h : w.WellKept) {v : SlotValue}
    (hagenda : w.agenda = .write o.scope o.slot v :: rest)
    (hposted : w.step.Posted w.step.agenda) (hcell : w.cell? c = some cell)
    (ho : cell.outputs[name]? = some o) (hcell' : w.step.cell? c = some cell')
    (ho' : cell'.outputs[name]? = some o) : (w.step.outputValue o).same v := by
  obtain ⟨u, hvalue, hu, -⟩ := h.exists_holds_perform hagenda hposted hcell ho hcell' ho'
  have hwritten : (w.tree.write o.scope o.slot v).2.2.Holds o.scope o.slot u :=
    (({ w with agenda := rest } : Workspace).write_same o.scope o.slot v).2.2.1 ▸ hu
  rw [hvalue]
  exact ScopeTree.same_of_holds_write h.ready.tied.allConsistent hwritten

end WellKept

theorem perform_notifyReaders (w : Workspace) (s : ScopeId) (readers : List ReaderId) :
    (w.perform (.notifyReaders s readers)).backend = w.backend ∧
      ∃ tasks, (w.perform (.notifyReaders s readers)).agenda = tasks ++ w.agenda ∧
        ∀ q x v, .write q x v ∉ tasks := by
  unfold perform
  cases readers with
  | nil => exact ⟨rfl, [], rfl, by simp⟩
  | cons reader later =>
    simp only
    split <;> exact ⟨rfl, _, rfl, by simp⟩

/-- What a task sets off is put on the agenda. A definition is going to be written only because of a
cell that has it. -/
theorem WellKept.exists_tasks (h : w.WellKept) (hagenda : w.agenda = task :: rest) :
    (({ w with agenda := rest } : Workspace).perform task).backend = w.backend ∧
      ∃ tasks, (({ w with agenda := rest } : Workspace).perform task).agenda = tasks ++ rest ∧
        ∀ s x v, .write s x v ∈ tasks →
          ({ w with agenda := rest } : Workspace).Permits task (.write s x v) := by
  by_cases hnotice : ∃ s readers, task = .notifyReaders s readers
  · obtain ⟨s, readers, rfl⟩ := hnotice
    obtain ⟨hbackend, tasks, htasks, hnone⟩ :=
      ({ w with agenda := rest } : Workspace).perform_notifyReaders s readers
    exact ⟨hbackend, tasks, htasks, fun q x v hmem => absurd hmem (hnone q x v)⟩
  obtain ⟨due, hcoherent⟩ := h.ready.coherent hagenda
  have hannounces := perform_announces hcoherent (h.ready.safe hagenda)
    (fun _ _ => h.attuned.silent) fun s readers heq => hnotice ⟨s, readers, heq⟩
  obtain ⟨tasks, htasks, hdiscreet⟩ := hannounces.agenda
  exact ⟨hannounces.backend, tasks, htasks, fun s x v hmem => hdiscreet _ hmem⟩

/-- A task that does not rouse a cell puts nothing on the agenda that writes what the cell has. -/
theorem WellKept.not_write_mem (h : w.WellKept) (hagenda : w.agenda = task :: rest)
    (hroused : ¬({ w with agenda := rest } : Workspace).Rouses c task)
    (hcell : w.cell? c = some cell) (ho : cell.outputs[name]? = some o) {tasks : List Task}
    (htasks : (({ w with agenda := rest } : Workspace).perform task).agenda = tasks ++ rest)
    (u : SlotValue) : .write o.scope o.slot u ∉ tasks := by
  intro hmem
  obtain ⟨-, tasks', htasks', hwrites⟩ := h.exists_tasks hagenda
  obtain rfl : tasks = tasks' := List.append_cancel_right (htasks.symm.trans htasks')
  obtain ⟨c', cell', n, hcell', ho', hroused', -⟩ := hwrites _ _ _ hmem
  have has : cell.Has name o.scope o.slot .definition := ho
  obtain rfl : c = c' := h.posted.owner_eq h.apportioned hcell hcell' has ho'
  exact hroused hroused'

/-- A workspace of which a chronicle is kept is well-kept. -/
theorem Chronicle.wellKept (h : Chronicle backend may deeds w) (hprompt : backend.Prompt) :
    w.WellKept := by
  obtain ⟨hsecluded, -, past, hrun⟩ := h.exists_run hprompt
  exact {
    ready := hsecluded.ready
    numbered := hsecluded.numbered
    solo := hrun.solo
    apportioned := hrun.apportioned
    attuned := hsecluded.attuned
    posted := h.posted hprompt
    supplies := h.supplies hprompt
    batched := hsecluded.batched
    resting := h.resting hprompt
    informed := h.informed hprompt }

end Workspace

end MathCanvas
