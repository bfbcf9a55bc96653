import MathCanvas.Proofs.Workspace.Informed

/-!
# What a subscription was told last

A notice takes the value of a reader or a definition once, and tells it to all who listen there, one
after the other. If one of them changes the value meanwhile, those behind it are told of the new
value first and of the old one after that (`Workspace.told_stale`).

This is all that can go wrong. Whatever changes a value puts a notice on the agenda, so as long as a
subscription is not called again, it was told the value of what it listens to, or a notice or a call
is still to come (`Workspace.Abreast`). If the value of its last call was the value of that time, it
still is when nothing is in progress any more (`Workspace.Run.accords_of_calls`).
-/

namespace MathCanvas

/-- The subscription that a task calls, and the value that it passes. -/
def Task.call? : Task → Option (SubscriptionId × SlotValue)
  | .tell (.client k) v => some (k, v)
  | _ => none

theorem Task.call?_eq_some_iff {task : Task} {k : SubscriptionId} {v : SlotValue} :
    task.call? = some (k, v) ↔ task = .tell (.client k) v := by
  unfold call?
  split <;> simp_all

/-- What a subscription can listen to. -/
inductive Topic where
  | reader (scope : ScopeId) (reader : ReaderId)
  | definition (scope : ScopeId) (slot : SlotId)

namespace ScopeTree

/-- The value of a definition, if it is there. -/
def definitionValue? (t : ScopeTree) (s : ScopeId) (id : SlotId) : Option SlotValue :=
  (t.get? s).bind (·.bindings.value? id)

def audience (t : ScopeTree) : Topic → List Listener
  | .reader p r => t.listeners p r
  | .definition s id => t.definitionListeners s id

def current? (t : ScopeTree) : Topic → Option SlotValue
  | .reader p r => t.readerValue? p r
  | .definition s id => t.definitionValue? s id

variable {t : ScopeTree} {s : ScopeId} {id : SlotId} {v : SlotValue}

theorem Holds.definitionValue? (h : t.Holds s id v) : t.definitionValue? s id = some v := by
  obtain ⟨scope, hs, hv, -⟩ := h
  rw [ScopeTree.definitionValue?, hs, Option.bind_some, hv]

theorem LentSlot.holds (h : t.LentSlot s id) (hv : t.definitionValue? s id = some v) :
    t.Holds s id v := by
  obtain ⟨scope, hs, hv⟩ := Option.bind_eq_some_iff.mp hv
  exact ⟨scope, hs, hv, h.not_importer scope hs⟩

theorem definitionNotice?_of_definitionValue? (h : t.definitionValue? s id = some v) :
    t.definitionNotice? s id = some (v, t.definitionListeners s id) := by
  obtain ⟨scope, hs, hv⟩ := Option.bind_eq_some_iff.mp h
  simp [definitionNotice?, hs, hv, definitionListeners_of_get? hs]

/-- A definition that is written had a value before. It is the same one, unless the write is one of
which listeners hear. -/
theorem exists_holds_of_write (h : t.Consistent) {u : SlotValue}
    (hv : (t.write s id u).2.2.Holds s id v) :
    ∃ before, t.Holds s id before ∧ ((t.write s id u).1 = false → v.same before) := by
  unfold write at hv ⊢
  cases hs : t.get? s with
  | none =>
    rw [hs] at hv
    exact ⟨v, hv, fun _ => SlotValue.same_refl v⟩
  | some scope =>
    rw [hs] at hv
    obtain ⟨scope', hscope', hvalue, hplaced⟩ := hv
    rcases (get?_modify_eq_some_iff hs).mp hscope' with ⟨-, rfl⟩ | ⟨hne, -⟩
    swap
    · exact absurd rfl hne
    have hplaced' : scope.bindings.place? id ≠ some .importer :=
      (Bindings.setValue_frame (h hs) id u).2.1 id ▸ hplaced
    have hwritten : (scope.bindings.setValue id u).2.value? id = some v := hvalue
    rw [Bindings.value?_setValue (h hs), if_pos rfl] at hwritten
    obtain ⟨before, hbefore, hv⟩ := Option.map_eq_some_iff.mp hwritten
    refine ⟨before, ⟨scope, hs, hbefore, hplaced'⟩, fun hsame => ?_⟩
    have hequal : (!(scope.bindings.value? id).any (·.valueEq u)) = false := hsame
    rw [hbefore, Option.any_some, Bool.not_eq_eq_eq_not, Bool.not_false] at hequal
    rw [← hv, Outline.written, if_pos hequal]
    exact SlotValue.same_refl before

end ScopeTree

namespace Workspace

variable {w : Workspace} {task : Task} {k : SubscriptionId} {p s : ScopeId} {r : ReaderId}
  {id : SlotId} {v now : SlotValue} {backend : Backend} {may : Workspace → Prop} {past : List Event}
  {due : ScopeId → ReaderId → Prop}

/-! ### Definitions -/

/-- A definition stands at what it did, or its listeners are going to be told. -/
theorem definition_told (h : w.tree.Consistent) (hgiven : w.tree.Given s id)
    (hv : (w.perform task).tree.Holds s id now) : ∃ before, w.tree.Holds s id before ∧
      (now.same before ∨ .notifyDefinition s id ∈ (w.perform task).agenda) := by
  have haffects := perform_affects h task
  generalize w.perform task = w' at hv haffects
  have hsubsided : ∀ {tree : ScopeTree}, w.tree.Subsides tree → tree.Holds s id now →
      ∃ before, w.tree.Holds s id before ∧
        (now.same before ∨ .notifyDefinition s id ∈ w'.agenda) := fun hsubsides hv =>
    ⟨now, (hsubsides.definition hv).resolve_right fun hnew => hnew.2 hgiven,
      .inl (SlotValue.same_refl now)⟩
  cases haffects with
  | spare hspares | complete _ hspares => exact hsubsided hspares.subsides hv
  | promise hsubsides => exact hsubsided hsubsides hv
  | keepDefinition | keepOutput => exact ⟨now, hv, .inl (SlotValue.same_refl now)⟩
  | @write _ q x u hwritten =>
    rw [(w.write_same q x u).2.2.1] at hv
    by_cases hself : s = q ∧ id = x
    · obtain ⟨rfl, rfl⟩ := hself
      obtain ⟨before, hbefore, hsame⟩ := ScopeTree.exists_holds_of_write h hv
      refine ⟨before, hbefore, ?_⟩
      unfold Workspace.write
      cases hchanged : (w.tree.write s id u).1 with
      | false => exact .inl (hsame hchanged)
      | true =>
        simp only [hchanged, if_true]
        exact .inr (by simp [Workspace.push])
    · exact ⟨now, ScopeTree.holds_of_write h hself hv, .inl (SlotValue.same_refl now)⟩

theorem mem_definitions_perform (h : w.tree.Consistent) {handle : DefinitionHandle}
    (hmem : handle ∈ w.definitions) : handle ∈ (w.perform task).definitions := by
  have haffects := perform_affects h task
  generalize w.perform task = w' at haffects
  cases haffects with
  | spare hspares | complete _ hspares =>
    rw [← hspares.definitions] at hmem
    exact hmem
  | promise | keepOutput => exact hmem
  | keepDefinition => exact Array.mem_push_of_mem _ hmem
  | @write _ q x u hwritten => rwa [(w.write_same q x u).2.1]

/-- Only clients listen to definitions, and only to those to which they have a handle. -/
def Overheard (w : Workspace) : Prop :=
  ∀ (s : ScopeId) (id : SlotId), ∀ l ∈ w.tree.definitionListeners s id,
    (∃ k, l = .client k) ∧ ∃ handle ∈ w.definitions, handle.scope = s ∧ handle.slot = id

theorem Overheard.perform (h : w.Overheard) (hconsistent : w.tree.Consistent) (task : Task) :
    (w.perform task).Overheard := by
  intro s id l hl
  rcases (w.perform_gathers task).definitions hl with hbefore | ⟨rfl, handle, hmem, hhandle⟩
  · obtain ⟨hclient, handle, hmem, hhandle⟩ := h s id l hbefore
    exact ⟨hclient, handle, mem_definitions_perform hconsistent hmem, hhandle⟩
  · exact ⟨⟨_, rfl⟩, handle, mem_definitions_perform hconsistent hmem, hhandle⟩

theorem Overheard.sweep (h : w.Overheard) : w.sweep.Overheard := by
  intro s id l hl
  obtain ⟨cells, tree, heq, -⟩ := w.exists_sweep_eq
  have hhandles := h s id l (w.listensLess_sweep.definitions hl)
  rw [heq]
  exact hhandles

theorem Run.overheard (h : Run may { backend } past w) : w.Overheard := by
  refine (h.invariant (P := fun _ w => w.Ready ∧ w.Overheard)
    ⟨Reached.start.ready, fun s id l hl => ?_⟩
    (fun _ w op hw hquiet => ⟨hw.1.call hquiet op, hw.2⟩)
    fun past w task rest hw _ hagenda => ⟨?_, ?_⟩).2
  · cases hs : ScopeTree.root.get? s with
    | none => simp [ScopeTree.definitionListeners, hs] at hl
    | some scope =>
      obtain ⟨-, rfl⟩ := get?_root_eq_some hs
      simp [ScopeTree.definitionListeners, hs] at hl
  · exact step_of_agenda hagenda ▸ hw.1.step
  · have hpopped : ({ w with agenda := rest } : Workspace).Overheard := hw.2
    exact (hpopped.perform hw.1.tied.allConsistent task).sweep

/-! ### Calls of subscriptions -/

/-- The next task calls a subscription with a value. -/
def Calls (w : Workspace) (k : SubscriptionId) (v : SlotValue) : Prop :=
  k < w.subscriptions.size ∧ w.agenda.head?.bind Task.call? = some (k, v)

instance : Decidable (w.Calls k v) := inferInstanceAs (Decidable (_ ∧ _))

theorem Calls.exists_agenda (h : w.Calls k v) :
    ∃ rest, w.agenda = .tell (.client k) v :: rest := by
  obtain ⟨task, hhead, hcall⟩ := Option.bind_eq_some_iff.mp h.2
  obtain rfl := Task.call?_eq_some_iff.mp hcall
  exact List.head?_eq_some_iff.mp hhead

theorem history_step_of_calls (h : w.Calls k v) : w.step.history = w.history ++ [.told k v] := by
  obtain ⟨rest, hagenda⟩ := h.exists_agenda
  obtain ⟨cells, tree, heq, -⟩ := (({ w with agenda := rest } : Workspace).perform
    (.tell (.client k) v)).exists_sweep_eq
  rw [step_of_agenda hagenda, heq]
  simp [perform, tell, Array.getElem?_eq_getElem h.1, record, push]

/-- What a subscription listens to has a value. -/
def Accords (w : Workspace) (k : SubscriptionId) (v : SlotValue) : Prop :=
  ∀ (topic : Topic) (now : SlotValue), .client k ∈ w.tree.audience topic →
    w.tree.current? topic = some now → v.same now

/-- Only listeners that are recorded somewhere have to be looked at. -/
theorem accords_iff : w.Accords k v ↔ ∀ entry ∈ w.tree.scopes.toList,
    (∀ heard ∈ entry.2.readerListeners.toList, .client k ∈ heard.2 →
      ∀ now ∈ entry.2.bindings.readerValue? heard.1, v.same now) ∧
    ∀ heard ∈ entry.2.definitionListeners.toList, .client k ∈ heard.2 →
      ∀ now ∈ entry.2.bindings.value? heard.1, v.same now := by
  have hfound : ∀ {ls : Std.TreeMap Nat (List Listener)} {x : Nat},
      .client k ∈ (ls[x]?).getD [] ↔ ∃ heard ∈ ls.toList, heard.1 = x ∧ .client k ∈ heard.2 := by
    intro ls x
    constructor
    · intro hl
      cases hls : ls[x]? with
      | none => simp [hls] at hl
      | some l =>
        rw [hls, Option.getD_some] at hl
        exact ⟨(x, l), Std.TreeMap.mem_toList_iff_getElem?_eq_some.mpr hls, rfl, hl⟩
    · rintro ⟨⟨x, l⟩, hmem, rfl, hl⟩
      rwa [Std.TreeMap.mem_toList_iff_getElem?_eq_some.mp hmem]
  constructor
  · rintro h ⟨s, scope⟩ hentry
    have hs : w.tree.get? s = some scope := Std.TreeMap.mem_toList_iff_getElem?_eq_some.mp hentry
    refine ⟨fun heard hmem hl now hnow => h (.reader s heard.1) now ?_ ?_,
      fun heard hmem hl now hnow => h (.definition s heard.1) now ?_ ?_⟩
    · rw [ScopeTree.audience, ScopeTree.listeners_of_get? hs]
      exact hfound.mpr ⟨heard, hmem, rfl, hl⟩
    · exact Option.bind_eq_some_iff.mpr ⟨scope, hs, hnow⟩
    · rw [ScopeTree.audience, ScopeTree.definitionListeners_of_get? hs]
      exact hfound.mpr ⟨heard, hmem, rfl, hl⟩
    · exact Option.bind_eq_some_iff.mpr ⟨scope, hs, hnow⟩
  · intro h topic now hl hnow
    cases topic with
    | reader s r =>
      obtain ⟨scope, hs, hvalue⟩ := Option.bind_eq_some_iff.mp hnow
      rw [ScopeTree.audience, ScopeTree.listeners_of_get? hs] at hl
      obtain ⟨heard, hmem, rfl, hk⟩ := hfound.mp hl
      exact (h (s, scope) (Std.TreeMap.mem_toList_iff_getElem?_eq_some.mpr hs)).1 heard hmem hk
        now hvalue
    | definition s id =>
      obtain ⟨scope, hs, hvalue⟩ := Option.bind_eq_some_iff.mp hnow
      rw [ScopeTree.audience, ScopeTree.definitionListeners_of_get? hs] at hl
      obtain ⟨heard, hmem, rfl, hk⟩ := hfound.mp hl
      exact (h (s, scope) (Std.TreeMap.mem_toList_iff_getElem?_eq_some.mpr hs)).2 heard hmem hk
        now hvalue

instance : Decidable (w.Accords k v) := decidable_of_iff _ accords_iff.symm

/-- A task by which a subscription to a topic is called, or is going to be. -/
inductive Promises (k : SubscriptionId) : Topic → Task → Prop
  | readers {p : ScopeId} {r : ReaderId} {readers : List ReaderId} (h : r ∈ readers) :
      Promises k (.reader p r) (.notifyReaders p readers)
  | definition {s : ScopeId} {id : SlotId} :
      Promises k (.definition s id) (.notifyDefinition s id)
  | tell {topic : Topic} {u : SlotValue} : Promises k topic (.tell (.client k) u)

/-- A subscription was told the value of what it listens to, or is going to be told. -/
structure Abreast (w : Workspace) (k : SubscriptionId) (v : SlotValue) (agenda : List Task) :
    Prop where
  known : k < w.subscriptions.size
  told : ∀ {topic : Topic} {now : SlotValue}, .client k ∈ w.tree.audience topic →
    w.tree.current? topic = some now → v.same now ∨ ∃ t ∈ agenda, Promises k topic t

/-- The listeners of a notice are called next. -/
theorem promises_perform {topic : Topic} (hpromises : Promises k topic task)
    (htask : ∀ u, task ≠ .tell (.client k) u) (hl : .client k ∈ w.tree.audience topic)
    (hnow : w.tree.current? topic = some now) :
    ∃ t ∈ (w.perform task).agenda, Promises k topic t := by
  cases hpromises with
  | tell => exact absurd rfl (htask _)
  | @definition s id =>
    unfold perform
    simp only [ScopeTree.definitionNotice?_of_definitionValue? hnow]
    exact ⟨.tell (.client k) now,
      List.mem_append_left _ (List.mem_map.mpr ⟨_, hl, rfl⟩), .tell⟩
  | @readers p r readers hr =>
    cases readers with
    | nil => cases hr
    | cons x later =>
      unfold perform
      simp only
      by_cases hx : r = x
      · subst hx
        rw [ScopeTree.readerNotice?_of_readerValue? hnow]
        refine ⟨.tell (.client k) now, List.mem_append_left _ ?_, .tell⟩
        exact List.mem_append_left _ (List.mem_map.mpr ⟨_, hl, rfl⟩)
      · have hlater : Promises k (.reader p r) (.notifyReaders p later) :=
          .readers ((List.mem_cons.mp hr).resolve_left hx)
        cases w.tree.readerNotice? p x <;> exact ⟨_, by simp [push], hlater⟩

namespace Abreast

theorem of_accords (h : w.Accords k v) (hk : k < w.subscriptions.size) (agenda : List Task) :
    w.Abreast k v agenda := ⟨hk, fun hl hnow => .inl (h _ _ hl hnow)⟩

theorem accords (h : w.Abreast k v []) : w.Accords k v :=
  fun _ _ hl hnow => (h.told hl hnow).resolve_right (by simp)

/-- A task keeps a subscription abreast, unless it calls it while it has something to learn: if the
task changes a value, it promises to tell. -/
theorem perform (h : w.Abreast k v (task :: w.agenda)) (hcoherent : w.Coherent due)
    (hsafe : (∀ s name u, task ≠ .tell (.importer s name) u) → task.Safe w.tree)
    (hoverheard : w.Overheard) (hready : (w.perform task).Ready)
    (htask : w.Accords k v ∨ ∀ u, task ≠ .tell (.client k) u) :
    (w.perform task).Abreast k v (w.perform task).agenda := by
  have hgathers := w.perform_gathers task
  have hconsistent : w.tree.Consistent := hcoherent.tied.allConsistent
  obtain ⟨tasks, hagenda⟩ := (perform_affects hconsistent task).agenda
  refine ⟨h.known.trans_le hgathers.subscriptions, fun {topic now} hl hnow => ?_⟩
  obtain ⟨hbefore, before, hvalue, htold⟩ : .client k ∈ w.tree.audience topic ∧
      ∃ before, w.tree.current? topic = some before ∧
        (now.same before ∨ ∃ t ∈ (w.perform task).agenda, Promises k topic t) := by
    cases topic with
    | reader p r =>
      have hbefore := (hgathers.clients hl).resolve_right h.known.ne
      refine ⟨hbefore, ?_⟩
      by_cases hnotice : ∃ s readers, task = .notifyReaders s readers
      · obtain ⟨s, readers, rfl⟩ := hnotice
        have htree : (w.perform (.notifyReaders s readers)).tree = w.tree := by
          unfold Workspace.perform
          cases readers with
          | nil => rfl
          | cons => simp only; split <;> rfl
        exact ⟨now, htree ▸ hnow, .inl (SlotValue.same_refl now)⟩
      have hannounces : w.Announces task (w.perform task) := perform_announces hcoherent hsafe
        (fun _ l hlistens => (hoverheard _ _ l hlistens).1)
        fun s readers heq => hnotice ⟨s, readers, heq⟩
      obtain ⟨before, hvalue, hsame⟩ :=
        hannounces.told (ScopeTree.given_of_listener hcoherent.tied hbefore) hnow
      exact ⟨before, hvalue, hsame.imp_right fun ⟨readers, hr, hmem⟩ => ⟨_, hmem, .readers hr⟩⟩
    | definition s id =>
      have hbefore := (hgathers.definitions hl).resolve_right fun hnew =>
        h.known.ne (Listener.client.inj hnew.1)
      obtain ⟨-, handle, hmem, rfl, rfl⟩ := hoverheard _ _ _ hbefore
      have hlent := hready.lent_definition (mem_definitions_perform hconsistent hmem)
      obtain ⟨before, hvalue, hsame⟩ := definition_told hconsistent
        (hcoherent.definition hmem).given (hlent.holds hnow)
      exact ⟨hbefore, before, hvalue.definitionValue?, hsame.imp_right fun hnotice =>
        ⟨_, hnotice, .definition⟩⟩
  refine htold.elim (fun hsame => ?_) .inr
  rcases h.told hbefore hvalue with hv | ⟨t, hmem, hpromises⟩
  · exact .inl (SlotValue.same_trans hv (SlotValue.same_symm hsame))
  · rcases List.mem_cons.mp hmem with rfl | hmem
    · rcases htask with haccords | htask
      · exact .inl (SlotValue.same_trans (haccords _ _ hbefore hvalue) (SlotValue.same_symm hsame))
      · exact .inr (promises_perform hpromises htask hbefore hvalue)
    · exact .inr ⟨t, hagenda ▸ List.mem_append_right _ hmem, hpromises⟩

/-- Sweeping changes no value. -/
theorem sweep (h : w.Abreast k v w.agenda) (hready : w.Ready) (hoverheard : w.Overheard) :
    w.sweep.Abreast k v w.sweep.agenda := by
  have hless := w.listensLess_sweep
  have hspares := spares_sweep hready.tied.allConsistent
  have hswept := swept_sweep hready.tied
  have hknown : k < w.sweep.subscriptions.size := by
    obtain ⟨cells, tree, heq, -⟩ := w.exists_sweep_eq
    rw [heq]
    exact h.known
  rw [sweep_agenda]
  refine ⟨hknown, fun {topic now} hl hnow => ?_⟩
  cases topic with
  | reader p r =>
    have hbefore := hless.clients hl
    obtain ⟨before, hvalue, hsame⟩ := (hswept.recedes.passes 0).told
      (ScopeTree.given_of_listener hready.tied hbefore) hnow
    have hkept : before.same now := SlotValue.same_symm (hsame.resolve_right (by simp))
    have htopic : Listener.client k ∈ w.tree.audience (.reader p r) := hbefore
    exact (h.told htopic hvalue).imp_left (SlotValue.same_trans · hkept)
  | definition s id =>
    have hbefore := hless.definitions hl
    obtain ⟨-, handle, hmem, rfl, rfl⟩ := hoverheard _ _ _ hbefore
    have hlent : w.sweep.tree.LentSlot handle.scope handle.slot :=
      (hready.swept hswept hready.tied).lent_definition (hswept.definitions.symm ▸ hmem)
    have hvalue := (hspares.subsides.definition (hlent.holds hnow)).resolve_right fun hnew =>
      hnew.2 (hready.lent_definition hmem).given
    have htopic : Listener.client k ∈ w.tree.audience (.definition handle.scope handle.slot) :=
      hbefore
    exact h.told htopic hvalue.definitionValue?

/-- A step keeps a subscription abreast, unless it calls it while it has something to learn. -/
theorem step (h : w.Abreast k v w.agenda) (hready : w.Ready) (hoverheard : w.Overheard)
    (hcalls : w.Accords k v ∨ ∀ u, ¬w.Calls k u) : w.step.Abreast k v w.step.agenda := by
  cases hagenda : w.agenda with
  | nil =>
    rw [step_of_quiet hagenda]
    exact h
  | cons task rest =>
    have hperformed := hready.perform hagenda
    have hpopped : ({ w with agenda := rest } : Workspace).Overheard := hoverheard
    obtain ⟨due, hcoherent⟩ := hready.coherent hagenda
    have hbefore : ({ w with agenda := rest } : Workspace).Abreast k v (task :: rest) :=
      ⟨h.known, hagenda ▸ h.told⟩
    rw [step_of_agenda hagenda]
    refine sweep (hbefore.perform hcoherent (hready.safe hagenda) hpopped hperformed ?_)
      hperformed (hpopped.perform hready.tied.allConsistent task)
    refine hcalls.imp_right fun hnone u heq => ?_
    refine hnone u ⟨h.known, ?_⟩
    rw [hagenda, List.head?_cons, Option.bind_some, heq, Task.call?]

end Abreast

/-- If the value of the last call of a subscription was the value of what it listens to, it still is
when nothing is in progress any more. -/
theorem Run.accords_of_calls (h : Run may { backend } past w) (hcalls : w.Calls k v)
    (haccords : w.Accords k v) {n : Nat}
    (hlast : ∀ m, 0 < m → m < n → ∀ u, ¬(w.settle m).Calls k u)
    (hquiet : (w.settle n).agenda = []) : (w.settle n).Accords k v := by
  have habreast : ∀ m, m ≤ n → (∃ past, Run (fun _ => True) { backend } past (w.settle m)) ∧
      (w.settle m).Abreast k v (w.settle m).agenda := by
    intro m hm
    induction m with
    | zero =>
      rw [Workspace.settle]
      exact ⟨⟨past, h.mono fun _ _ => trivial⟩, .of_accords haccords hcalls.1 _⟩
    | succ m ih =>
      obtain ⟨⟨past, hrun⟩, hbefore⟩ := ih (Nat.le_of_succ_le hm)
      rw [settle_succ_eq_step]
      refine ⟨⟨past, hrun.step trivial⟩, hbefore.step hrun.ready hrun.overheard ?_⟩
      rcases Nat.eq_zero_or_pos m with rfl | hpos
      · rw [Workspace.settle]
        exact .inl haccords
      · exact .inr (hlast m hpos hm)
  have hend := (habreast n (Nat.le_refl n)).2
  rw [hquiet] at hend
  exact hend.accords

/-- A subscription that writes back what it listens to is told of that last. -/
theorem accords_of_calls_written_back :
    let one : Expr := .number ⟨0x3ff0000000000000⟩
    let two : Expr := .number ⟨0x4000000000000000⟩
    let w := (((((({ backend := .recording } : Workspace).apply
      (.addDefinition 0 "x" .origin)).2.apply
      (.addReader 0 "x" ⟨.zero false, ⟨0x4014000000000000⟩⟩)).2.apply
      (.subscribe (.reader 0) fun n _ => if n = 0 then [.set 0 two] else [])).2.call
      (.set 0 one))).settle 5
    w.Calls 0 (.defined two) ∧ w.Accords 0 (.defined two) ∧ (w.settle 7).agenda = [] ∧
      (w.settle 7).Accords 0 (.defined two) := by
  intro one two w
  have hdefinition := Reached.start.apply (rfl : ({ backend := .recording } : Workspace).agenda = [])
    (.addDefinition 0 "x" .origin)
  have hreader := hdefinition.apply (by decide +kernel)
    (.addReader 0 "x" ⟨.zero false, ⟨0x4014000000000000⟩⟩)
  have hsubscribed := hreader.apply (by decide +kernel)
    (.subscribe (.reader 0) fun n _ => if n = 0 then [.set 0 two] else [])
  obtain ⟨past, hrun⟩ := hsubscribed.exists_run
  have hset : Run _ _ _ w :=
    (hrun.call (.set 0 one) (by decide +kernel)).settle fun _ _ => trivial
  have hcalls : w.Calls 0 (.defined two) := by decide +kernel
  have haccords : w.Accords 0 (.defined two) := by decide +kernel
  have hquiet : (w.settle 7).agenda = [] := by decide +kernel
  have hothers : ∀ m < 7, 0 < m →
      ((w.settle m).agenda.head?.bind Task.call?).map (·.1) ≠ some 0 := by decide +kernel
  refine ⟨hcalls, haccords, hquiet, hset.accords_of_calls hcalls haccords ?_ hquiet⟩
  intro m hpos hm u hlater
  exact hothers m hm hpos (by rw [hlater.2, Option.map_some])

/-- Two subscriptions listen to a reader of `x`, and the first one sets `x` to 2 when it is called for
the first time. After `x` is set to 1, the second one is told of 2, and then of 1, though `x` is 2. -/
theorem told_stale :
    let one : Expr := .number ⟨0x3ff0000000000000⟩
    let two : Expr := .number ⟨0x4000000000000000⟩
    let w := (((((({ backend := .recording } : Workspace).apply
      (.addDefinition 0 "x" .origin)).2.apply
      (.addReader 0 "x" ⟨.zero false, ⟨0x4014000000000000⟩⟩)).2.apply
      (.subscribe (.reader 0) fun n _ => if n = 0 then [.set 0 two] else [])).2.apply
      (.subscribe (.reader 0) fun _ _ => [])).2.apply (.set 0 one)).2
    w.agenda = [] ∧
      w.history = [.told 0 (.defined one), .told 0 (.defined two), .told 1 (.defined two),
        .told 1 (.defined one)] ∧
      (w.readers[0]?).map (fun h => w.tree.readerValue h.scope h.reader) = some (.defined two) := by
  decide +kernel

end Workspace

end MathCanvas
