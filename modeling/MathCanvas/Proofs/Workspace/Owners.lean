import MathCanvas.Proofs.Workspace.Definitions
import MathCanvas.Proofs.Workspace.Runs

/-!
# Every definition has one owner

A definition is made for the client or for an output of a cell, and until it is handed over a task
on the agenda keeps it (`Owner`). In a workspace that is `Apportioned` no definition has two owners,
and one that is not handed over yet has no value. Every run keeps this (`Run.apportioned`), so that
a write by one owner leaves the definitions of the others alone.
-/

namespace MathCanvas

/-- Who has a definition. -/
inductive Owner where
  | client
  | output (cell : CellId) (name : String)
  /-- Nobody yet, but a task is going to hand it over. -/
  | promise

namespace Workspace

variable {w w' : Workspace} {o o' : Owner} {s s₀ : ScopeId} {id id₀ : SlotId} {task : Task}
  {agenda agenda' : List Task} {past : List Event} {backend : Backend}

def Owns (w : Workspace) (agenda : List Task) : Owner → ScopeId → SlotId → Prop
  | .client, s, id => ∃ handle ∈ w.definitions, handle.scope = s ∧ handle.slot = id
  | .output c name, s, id => ∃ cell, w.cell? c = some cell ∧ cell.outputs[name]? = some ⟨s, id⟩
  | .promise, s, id => (s, id) ∈ agenda.filterMap Task.promised?

/-- No definition has two owners, and one without an owner has no value and is not going to have
one. -/
structure Apportioned (w : Workspace) (agenda : List Task) : Prop where
  unique : ∀ {o o' : Owner} {s : ScopeId} {id : SlotId}, w.Owns agenda o s id →
    w.Owns agenda o' s id → o = o'
  once : (agenda.filterMap Task.promised?).Nodup
  unassigned : ∀ {s : ScopeId} {id : SlotId}, w.Owns agenda .promise s id → ¬w.tree.Assigned s id
  written : ∀ {s : ScopeId} {id : SlotId} {v : SlotValue}, .write s id v ∈ agenda → v ≠ .unset →
    ¬w.Owns agenda .promise s id
  /-- A value is written at once. -/
  first : ∀ {s : ScopeId} {id : SlotId} {v : SlotValue}, .write s id v ∈ agenda.tail → v = .unset

/-! ### Numbers that were given out -/

/-- A definition that has an owner was made for others than an importer. -/
theorem Ready.lent_of_owns (h : w.Ready) (ho : w.Owns w.agenda o s id) : w.tree.LentSlot s id := by
  have hpromised : ∀ {task : Task}, task.promised? = some (s, id) → task.Safe w.tree →
      w.tree.LentSlot s id := by
    intro task hpromised hsafe
    cases task with
    | keepDefinition s' id' name =>
      cases hpromised
      exact hsafe
    | cell c task =>
      cases task with
      | keepOutput s' name id' =>
        cases hpromised
        exact hsafe
      | _ => cases hpromised
    | _ => cases hpromised
  have hcoherent : ∀ {due : ScopeId → ReaderId → Prop} {rest : List Task},
      ({ w with agenda := rest } : Workspace).Coherent due → w.Owns rest o s id →
        w.tree.LentSlot s id := by
    intro due rest hcoherent ho
    cases o with
    | client =>
      obtain ⟨handle, hmem, rfl, rfl⟩ := ho
      exact hcoherent.definition hmem
    | output c name =>
      obtain ⟨cell, hcell, hname⟩ := ho
      exact (hcoherent.cell hcell).output hname
    | promise =>
      obtain ⟨task, htask, hsome⟩ := List.mem_filterMap.mp ho
      exact hpromised hsome (hcoherent.safe htask)
  cases h with
  | resting hresting => exact hcoherent hresting ho
  | telling hagenda _ htelling =>
    refine hcoherent htelling ?_
    cases o with
    | client | output c name => exact ho
    | promise =>
      rw [Owns, hagenda] at ho
      exact ho

/-- A number that is not given out has no owner. -/
theorem not_owns_of_fresh (hgiven : ∀ {o : Owner} {s : ScopeId} {id : SlotId},
      w.Owns agenda o s id → w.tree.Given s id)
    (hfresh : ∃ scope, w.tree.get? s = some scope ∧ scope.bindings.nextId ≤ id) :
    ¬w.Owns agenda o s id := by
  obtain ⟨scope, hscope, hle⟩ := hfresh
  exact fun ho => Nat.lt_irrefl _ (((hgiven ho).2 scope hscope).trans_le hle)

/-! ### Steps -/

namespace Apportioned

/-- Nobody gets a definition. -/
theorem of_fewer (h : w.Apportioned agenda)
    (howns : ∀ o s id, w'.Owns agenda' o s id → w.Owns agenda o s id)
    (hpromised : (agenda'.filterMap Task.promised?).Sublist (agenda.filterMap Task.promised?))
    (hassigned : ∀ s id, w'.Owns agenda' .promise s id → w'.tree.Assigned s id →
      w.tree.Assigned s id)
    (hwritten : ∀ {s id v}, .write s id v ∈ agenda' → v ≠ .unset → ¬w.Owns agenda .promise s id)
    (hfirst : ∀ {s id v}, .write s id v ∈ agenda'.tail → v = .unset) :
    w'.Apportioned agenda' where
  unique ho ho' := h.unique (howns _ _ _ ho) (howns _ _ _ ho')
  once := h.once.sublist hpromised
  unassigned ho hassigned' := h.unassigned (howns _ _ _ ho) (hassigned _ _ ho hassigned')
  written hmem hset ho := hwritten hmem hset (howns _ _ _ ho)
  first := hfirst

/-- The first task is done, and nothing is left that writes a value. -/
theorem unset_of_mem {v : SlotValue} (h : w.Apportioned (task :: agenda))
    (hmem : .write s id v ∈ agenda) : v = .unset := h.first hmem

theorem sublist_cons (task : Task) (agenda : List Task) :
    (agenda.filterMap Task.promised?).Sublist ((task :: agenda).filterMap Task.promised?) :=
  (List.sublist_cons_self task agenda).filterMap _

theorem spare (h : w.Apportioned (task :: w.agenda)) (hspares : w.Spares w') :
    w'.Apportioned w'.agenda := by
  obtain ⟨tasks, hagenda, htasks⟩ := hspares.agenda
  have hpromised : w'.agenda.filterMap Task.promised? = w.agenda.filterMap Task.promised? := by
    rw [hagenda, List.filterMap_append, htasks.promised?, List.nil_append]
  have hunset : ∀ {s id v}, .write s id v ∈ w'.agenda → v = .unset := by
    intro s id v hmem
    rw [hagenda] at hmem
    rcases List.mem_append.mp hmem with hmem | hmem
    · exact htasks _ hmem
    · exact h.unset_of_mem hmem
  refine h.of_fewer (fun o s id ho => ?_) ?_ (fun _ _ _ => hspares.subsides.assigned)
    (fun hmem hset => absurd (hunset hmem) hset) fun hmem => hunset (List.mem_of_mem_tail hmem)
  · cases o with
    | client =>
      rw [Owns, hspares.definitions] at ho
      exact ho
    | output c name =>
      obtain ⟨cell', hcell', hname⟩ := ho
      exact hspares.output hcell' hname
    | promise =>
      rw [Owns, hpromised] at ho
      exact (sublist_cons task w.agenda).mem ho
  · rw [hpromised]
    exact sublist_cons task w.agenda

/-- A definition is written by its owner. -/
theorem write (h : w.Apportioned (task :: w.agenda)) (hconsistent : w.tree.Consistent)
    {v : SlotValue} (howner : v ≠ .unset → ¬w.Owns (task :: w.agenda) .promise s₀ id₀) :
    (w.write s₀ id₀ v).Apportioned (w.write s₀ id₀ v).agenda := by
  obtain ⟨hcells, hdefinitions, htree, tasks, hagenda, htasks⟩ := w.write_same s₀ id₀ v
  have hpromised : (w.write s₀ id₀ v).agenda.filterMap Task.promised?
      = w.agenda.filterMap Task.promised? := by
    rw [hagenda, List.filterMap_append, htasks.promised?, List.nil_append]
  have howns : ∀ o s id, (w.write s₀ id₀ v).Owns (w.write s₀ id₀ v).agenda o s id →
      w.Owns (task :: w.agenda) o s id := by
    intro o s id ho
    cases o with
    | client =>
      rw [Owns, hdefinitions] at ho
      exact ho
    | output c name =>
      obtain ⟨cell, hcell, hname⟩ := ho
      rw [cell?, hcells] at hcell
      exact ⟨cell, hcell, hname⟩
    | promise =>
      rw [Owns, hpromised] at ho
      exact (sublist_cons task w.agenda).mem ho
  have hunset : ∀ {s id v'}, .write s id v' ∈ (w.write s₀ id₀ v).agenda → v' = .unset := by
    intro s id v' hmem
    rw [hagenda] at hmem
    rcases List.mem_append.mp hmem with hmem | hmem
    · exact htasks _ hmem
    · exact h.unset_of_mem hmem
  refine h.of_fewer howns (hpromised ▸ sublist_cons task w.agenda) (fun s id ho hassigned => ?_)
    (fun hmem hset => absurd (hunset hmem) hset) fun hmem => hunset (List.mem_of_mem_tail hmem)
  rw [htree] at hassigned
  refine (ScopeTree.assigned_of_write hconsistent hassigned).resolve_right ?_
  rintro ⟨heq, hset⟩
  cases heq
  exact howner hset (howns _ _ _ ho)

/-- A task hands over a definition. -/
theorem handOver (h : w.Apportioned (task :: agenda)) (hpromised : task.promised? = some (s₀, id₀))
    (howner : o ≠ .promise) (hdefinitions : ∀ o' s id, w'.Owns agenda o' s id →
      w.Owns (task :: agenda) o' s id ∨ o' = o ∧ (s, id) = (s₀, id₀))
    (htree : w'.tree = w.tree) : w'.Apportioned agenda := by
  have hfirst : w.Owns (task :: agenda) .promise s₀ id₀ := by
    rw [Owns, List.filterMap_cons_some hpromised]
    exact List.mem_cons_self
  have hgone : ¬w'.Owns agenda .promise s₀ id₀ := by
    have honce := h.once
    rw [List.filterMap_cons_some hpromised] at honce
    exact (List.nodup_cons.mp honce).1
  -- whoever had the definition before was the task
  have hnew : ∀ {o'}, w'.Owns agenda o' s₀ id₀ → o' = o := by
    intro o' ho'
    rcases hdefinitions _ _ _ ho' with hold | ⟨heq, -⟩
    · cases h.unique hold hfirst
      exact absurd ho' hgone
    · exact heq
  have hunset : ∀ {s id v}, .write s id v ∈ agenda → v = .unset := h.unset_of_mem
  refine ⟨fun {o₁ o₂ s id} ho₁ ho₂ => ?_, h.once.sublist (sublist_cons task agenda), fun ho => ?_,
    fun hmem hset => absurd (hunset hmem) hset, fun hmem => hunset (List.mem_of_mem_tail hmem)⟩
  · by_cases hid : (s, id) = (s₀, id₀)
    · cases hid
      rw [hnew ho₁, hnew ho₂]
    · have hold : ∀ {o'}, w'.Owns agenda o' s id → w.Owns (task :: agenda) o' s id :=
        fun ho' => (hdefinitions _ _ _ ho').resolve_right fun hsame => hid hsame.2
      exact h.unique (hold ho₁) (hold ho₂)
  · rw [htree]
    rcases hdefinitions _ _ _ ho with hold | ⟨heq, -⟩
    · exact h.unassigned hold
    · exact absurd heq.symm howner

/-- A definition is made. -/
theorem promise {tree : ScopeTree} {keep : Task} {readers : List ReaderId} {more : List Task}
    (h : w.Apportioned (task :: w.agenda))
    (hgiven : ∀ {o : Owner} {s : ScopeId} {id : SlotId}, w.Owns (task :: w.agenda) o s id →
      w.tree.Given s id)
    (hsubsides : w.tree.Subsides tree) (hunassigned : ¬tree.Assigned s₀ id₀)
    (hfresh : ∃ scope, w.tree.get? s₀ = some scope ∧ scope.bindings.nextId ≤ id₀)
    (hpromised : keep.promised? = some (s₀, id₀)) (hmore : Harmless more) :
    (({ w with tree } : Workspace).push (.notifyReaders s₀ readers :: keep :: more)).Apportioned
      (.notifyReaders s₀ readers :: keep :: more ++ w.agenda) := by
  have hlist : (.notifyReaders s₀ readers :: keep :: more ++ w.agenda).filterMap Task.promised?
      = (s₀, id₀) :: w.agenda.filterMap Task.promised? := by
    rw [List.cons_append, List.cons_append, List.filterMap_cons_none rfl,
      List.filterMap_cons_some hpromised, List.filterMap_append, hmore.promised?, List.nil_append]
  have hnone : ∀ o', ¬w.Owns (task :: w.agenda) o' s₀ id₀ :=
    fun o' => not_owns_of_fresh hgiven hfresh
  have hold : ∀ {o' s id}, (({ w with tree } : Workspace).push
      (.notifyReaders s₀ readers :: keep :: more)).Owns
        (.notifyReaders s₀ readers :: keep :: more ++ w.agenda) o' s id →
      w.Owns (task :: w.agenda) o' s id ∨ o' = .promise ∧ (s, id) = (s₀, id₀) := by
    intro o' s id ho'
    cases o' with
    | client | output c name => exact .inl ho'
    | promise =>
      rw [Owns, hlist] at ho'
      rcases List.mem_cons.mp ho' with heq | hmem
      · exact .inr ⟨rfl, heq⟩
      · exact .inl ((sublist_cons task w.agenda).mem hmem)
  have hunset : ∀ {s id v}, .write s id v ∈
      (.notifyReaders s₀ readers :: keep :: more ++ w.agenda : List Task) → v = .unset := by
    intro s id v hmem
    have hkeep : .write s id v ≠ keep := by
      rintro rfl
      cases hpromised
    simp only [List.cons_append, List.mem_cons, List.mem_append, reduceCtorEq, false_or] at hmem
    rcases hmem with heq | hmem | hmem
    · exact absurd heq hkeep
    · exact hmore _ hmem
    · exact h.unset_of_mem hmem
  refine ⟨fun {o₁ o₂ s id} ho₁ ho₂ => ?_, ?_, fun {s id} ho => ?_,
    fun hmem hset => absurd (hunset hmem) hset, fun hmem => hunset (List.mem_of_mem_tail hmem)⟩
  · rcases hold ho₁ with hold₁ | ⟨rfl, heq⟩ <;> rcases hold ho₂ with hold₂ | ⟨rfl, heq'⟩
    · exact h.unique hold₁ hold₂
    · cases heq'
      exact absurd hold₁ (hnone _)
    · cases heq
      exact absurd hold₂ (hnone _)
    · rfl
  · rw [hlist]
    refine List.nodup_cons.mpr ⟨fun hmem => ?_, h.once.sublist (sublist_cons task w.agenda)⟩
    exact hnone .promise ((sublist_cons task w.agenda).mem hmem)
  · rcases hold ho with hmem | ⟨-, heq⟩
    · exact fun hassigned => h.unassigned hmem (hsubsides.assigned hassigned)
    · cases heq
      exact hunassigned

/-- One task leaves every definition with one owner. -/
theorem perform (h : w.Apportioned (task :: w.agenda)) (hconsistent : w.tree.Consistent)
    (hgiven : ∀ {o : Owner} {s : ScopeId} {id : SlotId}, w.Owns (task :: w.agenda) o s id →
      w.tree.Given s id) :
    (w.perform task).Apportioned (w.perform task).agenda := by
  have haffects := perform_affects hconsistent task
  generalize w.perform task = w' at haffects ⊢
  cases haffects with
  | spare hspares => exact h.spare hspares
  | write v howner =>
    refine h.write hconsistent fun hset hpromise => ?_
    rcases howner with rfl | hclient
    · exact h.written List.mem_cons_self hset hpromise
    · have howns : w.Owns (task :: w.agenda) .client _ _ := hclient
      cases h.unique hpromise howns
  | @complete _ w' c cell cell' name output v hspares hcell _ _ houtput =>
    have hspared := h.spare hspares
    have hunset : ∀ {s id v'}, .write s id v' ∈ w'.agenda → v' = .unset := by
      obtain ⟨tasks, hagenda, htasks⟩ := hspares.agenda
      intro s id v' hmem
      rw [hagenda] at hmem
      rcases List.mem_append.mp hmem with hmem | hmem
      · exact htasks _ hmem
      · exact h.unset_of_mem hmem
    have howns : ∀ {o' s id}, (w'.push [.write output.scope output.slot v]).Owns
        (.write output.scope output.slot v :: w'.agenda) o' s id ↔ w'.Owns w'.agenda o' s id := by
      intro o' s id
      cases o' with
      | client | output c name => exact Iff.rfl
      | promise => rw [Owns, List.filterMap_cons_none rfl, Owns]
    refine ⟨fun ho ho' => hspared.unique (howns.mp ho) (howns.mp ho'), ?_,
      fun ho => hspared.unassigned (howns.mp ho), fun {s id v'} hmem hset ho => ?_, hunset⟩
    · exact hspared.once
    · rcases List.mem_cons.mp hmem with heq | hmem
      · -- the definition belongs to the cell
        cases heq
        have hpromise : w.Owns (task :: w.agenda) .promise output.scope output.slot := by
          obtain ⟨tasks, hagenda, htasks⟩ := hspares.agenda
          have hmem := howns.mp ho
          rw [Owns, hagenda, List.filterMap_append, htasks.promised?, List.nil_append] at hmem
          exact (sublist_cons task w.agenda).mem hmem
        have howner : w.Owns (task :: w.agenda) (.output c name) output.scope output.slot :=
          ⟨cell, hcell, houtput⟩
        cases h.unique hpromise howner
      · exact absurd (hunset hmem) hset
  | promise hsubsides hunassigned hfresh hpromised hmore =>
    exact h.promise hgiven hsubsides hunassigned hfresh hpromised hmore
  | keepDefinition s id name =>
    refine h.handOver rfl (by simp : Owner.client ≠ .promise) (fun o' s' id' ho' => ?_) rfl
    cases o' with
    | client =>
      obtain ⟨handle, hmem, rfl, rfl⟩ := ho'
      rcases Array.mem_push.mp hmem with hmem | rfl
      · exact .inl ⟨handle, hmem, rfl, rfl⟩
      · exact .inr ⟨rfl, rfl⟩
    | output c name' => exact .inl ho'
    | promise => exact .inl ((sublist_cons _ _).mem ho')
  | @keepOutput c cell s name id hcell =>
    refine h.handOver rfl (by simp : Owner.output c name ≠ .promise) (fun o' s' id' ho' => ?_) rfl
    cases o' with
    | client => exact .inl ho'
    | output c' name' =>
      obtain ⟨cell', hcell', hname'⟩ := ho'
      rw [cell?, Workspace.putCell, lookup_insert] at hcell'
      split at hcell'
      · rename_i hc
        cases hcell'
        rw [lookup_insert] at hname'
        split at hname'
        · rename_i hname
          cases hname'
          exact .inr ⟨by rw [hc, hname], rfl⟩
        · exact .inl ⟨cell, hc ▸ hcell, hname'⟩
      · exact .inl ⟨cell', hcell', hname'⟩
    | promise => exact .inl ((sublist_cons _ _).mem ho')

theorem sweep (h : w.Apportioned w.agenda) (hconsistent : w.tree.Consistent) :
    w.sweep.Apportioned w.sweep.agenda := by
  have hspares := spares_sweep hconsistent
  have hagenda := w.sweep_agenda
  refine h.of_fewer (fun o s id ho => ?_) (by rw [hagenda]) (fun _ _ _ => hspares.subsides.assigned)
    (fun hmem hset => h.written (hagenda ▸ hmem) hset) fun hmem => h.first (hagenda ▸ hmem)
  cases o with
  | client =>
    rw [Owns, hspares.definitions] at ho
    exact ho
  | output c name =>
    obtain ⟨cell', hcell', hname⟩ := ho
    exact hspares.output hcell' hname
  | promise =>
    rw [Owns, hagenda] at ho
    exact ho

end Apportioned

/-! ### Runs -/

/-- An operation that is called has given nobody a definition yet. -/
theorem Apportioned.call (h : w.Apportioned agenda) (op : Op) :
    (w.call op).Apportioned (w.call op).agenda := by
  refine h.of_fewer (fun o s id ho => ?_) ?_ (fun _ _ _ => id) (fun hmem => ?_) fun hmem => ?_
  · cases o with
    | client | output c name => exact ho
    | promise => simp [Owns, Workspace.call, Task.promised?] at ho
  · exact List.nil_sublist _
  · simp [Workspace.call] at hmem
  · simp [Workspace.call] at hmem

/-- Every step leaves every definition with one owner. -/
theorem Apportioned.step (h : w.Apportioned w.agenda) (hready : w.Ready) :
    w.step.Apportioned w.step.agenda := by
  cases hagenda : w.agenda with
  | nil =>
    have hstay : w.step = w := by rw [Workspace.step, hagenda]
    rw [hstay]
    exact h
  | cons task rest =>
    rw [step_of_agenda hagenda]
    have hpopped : ({ w with agenda := rest } : Workspace).Apportioned (task :: rest) := by
      rw [hagenda] at h
      exact ⟨h.unique, h.once, h.unassigned, h.written, h.first⟩
    have hgiven : ∀ {o : Owner} {s : ScopeId} {id : SlotId},
        ({ w with agenda := rest } : Workspace).Owns (task :: rest) o s id →
          w.tree.Given s id := by
      intro o s id ho
      have howns : w.Owns w.agenda o s id := by
        rw [hagenda]
        cases o <;> exact ho
      exact (hready.lent_of_owns howns).given
    have hperformed := hready.perform hagenda
    exact (hpopped.perform hready.tied.allConsistent hgiven).sweep hperformed.tied.allConsistent

/-- In every run, the imports are in order up to what is told next. -/
theorem Run.ready {may : Workspace → Prop} (h : Run may { backend } past w) : w.Ready := by
  induction h with
  | refl => exact Reached.start.ready
  | call op _ hquiet ih => exact ih.call hquiet op
  | step _ _ ih => exact ih.step

/-- Nobody has a definition yet. -/
theorem Apportioned.start (backend : Backend) : ({ backend } : Workspace).Apportioned [] := by
  refine ⟨fun {o o' s id} ho ho' => ?_, by simp, fun ho => ?_, fun hmem => ?_, fun hmem => ?_⟩
  · cases o with
    | client => simp [Owns] at ho
    | output c name => simp [Owns, cell?] at ho
    | promise => simp [Owns] at ho
  · simp [Owns] at ho
  · simp at hmem
  · simp at hmem

/-- In every run, every definition has one owner. -/
theorem Run.apportioned {may : Workspace → Prop} (h : Run may { backend } past w) :
    w.Apportioned w.agenda := by
  induction h with
  | refl => exact .start backend
  | call op _ _ ih => exact ih.call op
  | step hrun _ ih => exact ih.step hrun.ready

end Workspace

end MathCanvas
