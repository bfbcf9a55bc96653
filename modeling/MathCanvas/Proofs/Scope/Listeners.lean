import MathCanvas.Proofs.Scope.Lifetime

/-!
# Those who listen to readers

Nearly nothing that is done to a tree of scopes makes an input of a cell or a client listen to a
reader, or anybody to a definition (`ListensLess`). The inputs themselves begin to listen in one
place only (`mem_listeners_listenToReader`).
-/

namespace MathCanvas

/-- The input of a cell that a listener is. -/
def Listener.input? : Listener → Option (CellId × String)
  | .input c name => some (c, name)
  | _ => none

theorem Listener.input?_eq_some_iff {l : Listener} {c : CellId} {name : String} :
    l.input? = some (c, name) ↔ l = .input c name := by
  cases l <;> simp [input?]

namespace ScopeTree

variable {t t' u : ScopeTree} {s p : ScopeId} {scope : Scope} {id : SlotId} {r : ReaderId}
  {name : String} {l : Listener} {c : CellId}

/-- Those who listen to a reader. -/
def listeners (t : ScopeTree) (p : ScopeId) (r : ReaderId) : List Listener :=
  ((t.get? p).bind (·.readerListeners[r]?)).getD []

/-- The inputs of cells among the listeners of a number. -/
def inputsIn (listeners : Std.TreeMap Nat (List Listener)) (x : Nat) : List (CellId × String) :=
  ((listeners[x]?).getD []).filterMap Listener.input?

/-- The inputs of cells that listen to a reader. -/
def inputs (t : ScopeTree) (p : ScopeId) (r : ReaderId) : List (CellId × String) :=
  (t.listeners p r).filterMap Listener.input?

/-- Those who listen to a definition. -/
def definitionListeners (t : ScopeTree) (s : ScopeId) (id : SlotId) : List Listener :=
  ((t.get? s).bind (·.definitionListeners[id]?)).getD []

theorem listeners_of_get? (hp : t.get? p = some scope) (r : ReaderId) :
    t.listeners p r = (scope.readerListeners[r]?).getD [] := by
  rw [listeners, hp, Option.bind_some]

theorem inputs_of_get? (hp : t.get? p = some scope) (r : ReaderId) :
    t.inputs p r = inputsIn scope.readerListeners r := by
  rw [inputs, listeners_of_get? hp, inputsIn]

theorem mem_inputs_iff : (c, name) ∈ t.inputs p r ↔ .input c name ∈ t.listeners p r := by
  simp [inputs, List.mem_filterMap, Listener.input?_eq_some_iff]

theorem definitionListeners_of_get? (hs : t.get? s = some scope) (id : SlotId) :
    t.definitionListeners s id = (scope.definitionListeners[id]?).getD [] := by
  rw [definitionListeners, hs, Option.bind_some]

theorem eq_of_readerNotice? {v : SlotValue} {ls : List Listener}
    (h : t.readerNotice? p r = some (v, ls)) :
    t.readerValue p r = v ∧ t.listeners p r = ls := by
  simp only [readerNotice?, Option.pure_def, Option.bind_eq_bind, Option.bind_eq_some_iff,
    Option.some.injEq, Prod.mk.injEq] at h
  obtain ⟨scope, hp, value, hvalue, rfl, rfl⟩ := h
  rw [readerValue, hp, Option.bind_some, hvalue]
  exact ⟨rfl, listeners_of_get? hp r⟩

theorem readerNotice?_of_readerValue? {v : SlotValue} (h : t.readerValue? p r = some v) :
    t.readerNotice? p r = some (v, t.listeners p r) := by
  obtain ⟨scope, hp, hvalue⟩ := Option.bind_eq_some_iff.mp h
  simp [readerNotice?, hp, hvalue, listeners_of_get? hp]

theorem eq_of_definitionNotice? {v : SlotValue} {ls : List Listener}
    (h : t.definitionNotice? s id = some (v, ls)) : t.definitionListeners s id = ls := by
  simp only [definitionNotice?, Option.pure_def, Option.bind_eq_bind, Option.bind_eq_some_iff,
    Option.some.injEq, Prod.mk.injEq] at h
  obtain ⟨scope, hs, value, -, -, rfl⟩ := h
  exact definitionListeners_of_get? hs id

/-! ### Only importers begin to listen -/

/-- The inputs and clients among the second listeners are among the first ones, too. -/
def Fewer (ls ls' : Std.TreeMap Nat (List Listener)) : Prop :=
  ∀ x : Nat, (inputsIn ls' x).Sublist (inputsIn ls x) ∧
    ∀ k, .client k ∈ (ls'[x]?).getD [] → .client k ∈ (ls[x]?).getD []

theorem Fewer.refl (ls : Std.TreeMap Nat (List Listener)) : Fewer ls ls :=
  fun _ => ⟨.refl _, fun _ => id⟩

/-- Nobody but importers begins to listen to a reader, and nobody at all to a definition. -/
structure ListensLess (t t' : ScopeTree) : Prop where
  inputs : ∀ (p : ScopeId) (r : ReaderId), (t'.inputs p r).Sublist (t.inputs p r)
  clients : ∀ {p : ScopeId} {r : ReaderId} {k : SubscriptionId},
    .client k ∈ t'.listeners p r → .client k ∈ t.listeners p r
  definitions : ∀ {s : ScopeId} {id : SlotId} {l : Listener},
    l ∈ t'.definitionListeners s id → l ∈ t.definitionListeners s id

namespace ListensLess

theorem refl (t : ScopeTree) : t.ListensLess t := ⟨fun _ _ => .refl _, id, id⟩

theorem trans (h : t.ListensLess u) (h' : u.ListensLess t') : t.ListensLess t' :=
  ⟨fun p r => (h'.inputs p r).trans (h.inputs p r), fun hk => h.clients (h'.clients hk),
    fun hl => h.definitions (h'.definitions hl)⟩

theorem readers (h : t.ListensLess t') (hl : .input c name ∈ t'.listeners p r) :
    .input c name ∈ t.listeners p r :=
  mem_inputs_iff.mp ((h.inputs p r).subset (mem_inputs_iff.mpr hl))

/-- One scope changes. -/
theorem of_modify {f : Scope → Scope}
    (hreaders : ∀ scope : Scope, Fewer scope.readerListeners (f scope).readerListeners)
    (hdefinitions : ∀ {scope : Scope} {id : SlotId} {l : Listener},
      l ∈ ((f scope).definitionListeners[id]?).getD [] →
        l ∈ (scope.definitionListeners[id]?).getD []) : t.ListensLess (t.modify s f) := by
  have hfewer : ∀ (p : ScopeId) (r : ReaderId),
      ((t.modify s f).inputs p r).Sublist (t.inputs p r) ∧
        ∀ k, .client k ∈ (t.modify s f).listeners p r → .client k ∈ t.listeners p r := by
    intro p r
    cases hp : t.get? p with
    | none =>
      have hnone : (t.modify s f).get? p = none := by simp [get?_modify, hp]
      rw [ScopeTree.inputs, listeners, hnone]
      exact ⟨List.nil_sublist _, fun k hk => absurd hk List.not_mem_nil⟩
    | some scope =>
      rw [inputs_of_get? hp, listeners_of_get? hp]
      by_cases hsp : s = p
      · subst hsp
        rw [inputs_of_get? (get?_modify_self f hp), listeners_of_get? (get?_modify_self f hp)]
        exact hreaders scope r
      · have hsame := (get?_modify_of_ne f hsp).trans hp
        rw [inputs_of_get? hsame, listeners_of_get? hsame]
        exact Fewer.refl _ r
  refine ⟨fun p r => (hfewer p r).1, (hfewer _ _).2 _, ?_⟩
  · intro p id l hl
    rw [definitionListeners, get?_modify] at hl
    split at hl
    · cases hp : t.get? p with
      | none => simp [hp] at hl
      | some scope =>
        rw [hp] at hl
        rw [definitionListeners_of_get? hp]
        exact hdefinitions hl
    · exact hl

/-- Something else of a scope changes. -/
theorem of_modify_same {f : Scope → Scope}
    (hf : ∀ scope, (f scope).readerListeners = scope.readerListeners ∧
      (f scope).definitionListeners = scope.definitionListeners) :
    t.ListensLess (t.modify s f) := by
  refine of_modify (fun scope => ?_) fun {scope id l} hl => ?_
  · rw [(hf scope).1]
    exact .refl _
  · rwa [(hf scope).2] at hl

theorem erase (t : ScopeTree) (s : ScopeId) :
    t.ListensLess { t with scopes := t.scopes.erase s } := by
  have hget : ∀ p, ({ t with scopes := t.scopes.erase s } : ScopeTree).get? p =
      if s = p then none else t.get? p := lookup_erase _ _
  refine ⟨fun p r => ?_, fun {p r k} hk => ?_, fun {p id l} hl => ?_⟩
  · rw [ScopeTree.inputs, listeners, hget]
    split
    · exact List.nil_sublist _
    · exact .refl _
  · rw [listeners, hget] at hk
    split at hk
    · cases hk
    · exact hk
  · rw [definitionListeners, hget] at hl
    split at hl
    · simp at hl
    · exact hl

/-- What every one of some changes keeps, all of them keep. -/
theorem foldl {α : Type} {f : ScopeTree → α → ScopeTree}
    (hf : ∀ t x, ListensLess t (f t x)) (l : List α) :
    ∀ t : ScopeTree, t.ListensLess (l.foldl f t) := by
  induction l with
  | nil => exact fun t => .refl t
  | cons x rest ih => exact fun t => (hf t x).trans (ih (f t x))

end ListensLess

/-! ### Listeners are added and dropped -/

theorem mem_of_mem_erase {listeners : Std.TreeMap Nat (List Listener)} {x y : Nat}
    (h : l ∈ ((listeners.erase x)[y]?).getD []) : l ∈ (listeners[y]?).getD [] := by
  rw [lookup_erase] at h
  split at h
  · simp at h
  · exact h

theorem mem_of_mem_dropListener {listeners : Std.TreeMap Nat (List Listener)} {x y : Nat}
    {m : Listener} (h : l ∈ ((dropListener listeners x m)[y]?).getD []) :
    l ∈ (listeners[y]?).getD [] := by
  rw [dropListener, lookup_modify] at h
  split at h
  · cases hls : listeners[y]? with
    | none => simp [hls] at h
    | some ls =>
      rw [hls, Option.map_some, Option.getD_some] at h
      exact List.mem_of_mem_filter h
  · exact h

theorem mem_dropListener {listeners : Std.TreeMap Nat (List Listener)} {x y : Nat} {m : Listener}
    (hne : l ≠ m) (h : l ∈ (listeners[y]?).getD []) :
    l ∈ ((dropListener listeners x m)[y]?).getD [] := by
  rw [dropListener, lookup_modify]
  split
  · cases hls : listeners[y]? with
    | none => simp [hls] at h
    | some ls =>
      rw [hls, Option.getD_some] at h
      rw [Option.map_some, Option.getD_some]
      exact List.mem_filter.mpr ⟨h, bne_iff_ne.mpr hne⟩
  · exact h

theorem inputsIn_erase (listeners : Std.TreeMap Nat (List Listener)) (x y : Nat) :
    (inputsIn (listeners.erase x) y).Sublist (inputsIn listeners y) := by
  rw [inputsIn, lookup_erase]
  split
  · exact List.nil_sublist _
  · exact .refl _

theorem inputsIn_dropListener (listeners : Std.TreeMap Nat (List Listener)) (x : Nat)
    (m : Listener) (y : Nat) :
    (inputsIn (dropListener listeners x m) y).Sublist (inputsIn listeners y) := by
  rw [inputsIn, dropListener, lookup_modify, inputsIn]
  split
  · cases listeners[y]? with
    | none => exact .refl _
    | some ls => exact List.filter_sublist.filterMap _
  · exact .refl _

theorem fewer_erase (listeners : Std.TreeMap Nat (List Listener)) (x : Nat) :
    Fewer listeners (listeners.erase x) :=
  fun y => ⟨inputsIn_erase listeners x y, fun _ => mem_of_mem_erase⟩

theorem fewer_dropListener (listeners : Std.TreeMap Nat (List Listener)) (x : Nat)
    (m : Listener) : Fewer listeners (dropListener listeners x m) :=
  fun y => ⟨inputsIn_dropListener listeners x m y, fun _ => mem_of_mem_dropListener⟩

/-- Of the inputs, a listener that is added is one if it is an input. -/
theorem inputsIn_addListener (listeners : Std.TreeMap Nat (List Listener)) (x : Nat)
    (m : Listener) (y : Nat) : inputsIn (addListener listeners x m) y =
      inputsIn listeners y ++ if x = y then m.input?.toList else [] := by
  rw [inputsIn, addListener, lookup_insert, inputsIn]
  split
  · rename_i hxy
    subst hxy
    simp [List.filterMap_append, List.filterMap_cons, Option.toList]
    split <;> simp_all
  · simp

/-- A listener of a list to which one was added is that one, or was there. -/
theorem mem_addListener_iff {listeners : Std.TreeMap Nat (List Listener)} {x y : Nat}
    {m : Listener} : l ∈ ((addListener listeners x m)[y]?).getD [] ↔
      x = y ∧ l = m ∨ l ∈ (listeners[y]?).getD [] := by
  rw [addListener, lookup_insert]
  by_cases hxy : x = y
  · subst hxy
    simp [or_comm]
  · simp [hxy]

/-- An importer begins to listen to a reader. -/
theorem listensLess_listenToReader (t : ScopeTree) (s : ScopeId) (r : ReaderId) (c : ScopeId)
    (name : String) : t.ListensLess (t.listenToReader s r (.importer c name)) :=
  .of_modify (fun scope x => ⟨by simp [inputsIn_addListener, Listener.input?],
    fun _ hk => (mem_addListener_iff.mp hk).resolve_left fun heq => nomatch heq.2⟩) id

theorem listensLess_ignoreReader (t : ScopeTree) (s : ScopeId) (r : ReaderId) (l : Listener) :
    t.ListensLess (t.ignoreReader s r l) := .of_modify (fun _ => fewer_dropListener _ _ _) id

theorem listensLess_ignoreDefinition (t : ScopeTree) (s : ScopeId) (id : SlotId) (l : Listener) :
    t.ListensLess (t.ignoreDefinition s id l) :=
  .of_modify (fun _ => .refl _) mem_of_mem_dropListener

/-- An input begins to listen to one reader. -/
theorem mem_listeners_listenToReader {x : ReaderId} {m : Listener}
    (h : m ∈ (t.listenToReader s r l).listeners p x) :
    p = s ∧ x = r ∧ m = l ∨ m ∈ t.listeners p x := by
  rw [listeners, listenToReader, get?_modify] at h
  split at h
  · rename_i hsp
    cases hp : t.get? p with
    | none => simp [hp] at h
    | some scope =>
      rw [hp, Option.map_some, Option.bind_some, mem_addListener_iff] at h
      rw [listeners_of_get? hp]
      exact h.imp_left fun hnew => ⟨hsp.symm, hnew.1.symm, hnew.2⟩
  · exact .inr h

theorem listeners_listenToDefinition (t : ScopeTree) (s : ScopeId) (id : SlotId) (l : Listener)
    (p : ScopeId) (r : ReaderId) : (t.listenToDefinition s id l).listeners p r = t.listeners p r := by
  rw [listeners, listenToDefinition, get?_modify, listeners]
  split
  · cases t.get? p <;> rfl
  · rfl

/-- Somebody begins to listen to one definition. -/
theorem mem_definitionListeners_listenToDefinition {x : SlotId} {m : Listener}
    (h : m ∈ (t.listenToDefinition s id l).definitionListeners p x) :
    p = s ∧ x = id ∧ m = l ∨ m ∈ t.definitionListeners p x := by
  rw [definitionListeners, listenToDefinition, get?_modify] at h
  split at h
  · rename_i hsp
    cases hp : t.get? p with
    | none => simp [hp] at h
    | some scope =>
      rw [hp, Option.map_some, Option.bind_some, mem_addListener_iff] at h
      rw [definitionListeners_of_get? hp]
      exact h.imp_left fun hnew => ⟨hsp.symm, hnew.1.symm, hnew.2⟩
  · exact .inr h

/-- The input of a listener that is added joins the inputs of its reader. -/
theorem inputs_listenToReader (t : ScopeTree) (s : ScopeId) (r : ReaderId) (l : Listener)
    (p : ScopeId) (x : ReaderId) : ((t.listenToReader s r l).inputs p x).Sublist
      (t.inputs p x ++ if s = p ∧ r = x then l.input?.toList else []) := by
  cases hp : t.get? p with
  | none =>
    have hnone : (t.listenToReader s r l).get? p = none := by
      rw [listenToReader, get?_modify]
      split <;> simp [hp]
    rw [inputs, listeners, hnone]
    exact List.nil_sublist _
  | some scope =>
    rw [inputs_of_get? hp]
    by_cases hsp : s = p
    · subst hsp
      rw [listenToReader, inputs_of_get? (get?_modify_self _ hp), inputsIn_addListener]
      simp
    · rw [listenToReader, inputs_of_get? ((get?_modify_of_ne _ hsp).trans hp)]
      exact List.sublist_append_left _ _

theorem definitionListeners_listenToReader (t : ScopeTree) (s : ScopeId) (r : ReaderId)
    (l : Listener) (p : ScopeId) (id : SlotId) :
    (t.listenToReader s r l).definitionListeners p id = t.definitionListeners p id := by
  rw [definitionListeners, listenToReader, get?_modify, definitionListeners]
  split
  · cases t.get? p <;> rfl
  · rfl

/-! ### Imports -/

theorem listensLess_setBindings (t : ScopeTree) (s : ScopeId) (b : Bindings) :
    t.ListensLess (t.setBindings s b) := .of_modify_same fun _ => ⟨rfl, rfl⟩

theorem listensLess_link (name : String) (further : List ScopeId) :
    ∀ (t : ScopeTree) (s : ScopeId), t.ListensLess (t.link s name further).2 := by
  induction further with
  | nil => exact fun t _ => .refl t
  | cons parent further ih =>
    intro t s
    unfold link
    split
    · split
      · exact .refl t
      · rename_i scope around _ _ _
        have hset := t.listensLess_setBindings parent
          (around.bindings.addReader name scope.start).2.2
        simp only
        split
        · exact (hset.trans (listensLess_listenToReader _ _ _ s name)).trans
            (.of_modify_same fun _ => ⟨rfl, rfl⟩)
        · exact ((hset.trans (ih _ _)).trans (listensLess_listenToReader _ _ _ s name)).trans
            (.of_modify_same fun _ => ⟨rfl, rfl⟩)
    · exact .refl t

theorem listensLess_unlink (name : String) (further : List ScopeId) :
    ∀ (t : ScopeTree) (s : ScopeId), t.ListensLess (t.unlink s name further) := by
  induction further with
  | nil => exact fun t _ => .refl t
  | cons parent further ih =>
    intro t s
    unfold unlink
    split
    · exact .refl t
    · rename_i reader _
      have herase : t.ListensLess
          (t.modify s fun scope => { scope with imports := scope.imports.erase name }) :=
        .of_modify_same fun _ => ⟨rfl, rfl⟩
      simp only
      split
      · exact herase
      · rename_i around _
        have hdrop := herase.trans (.of_modify (s := parent) (f := fun outer =>
          { outer with
            bindings := (around.bindings.removeReader reader).2
            readerListeners := outer.readerListeners.erase reader })
          (fun _ => fewer_erase _ _) id)
        split
        · exact hdrop
        · exact hdrop.trans (ih _ _)

theorem listensLess_follow (t : ScopeTree) (s : ScopeId) (changes : Changes) :
    t.ListensLess (t.follow s changes).2 := by
  have hlinks : ∀ (names : List String) (readers : List ReaderId) (u : ScopeTree),
      u.ListensLess (names.foldl (fun linked name =>
        (linked.1 ++ (linked.2.link s name (t.ancestors s)).1,
          (linked.2.link s name (t.ancestors s)).2)) (readers, u)).2 := by
    intro names
    induction names with
    | nil => exact fun _ u => .refl u
    | cons name rest ih => exact fun readers u => (listensLess_link name _ u s).trans (ih _ _)
  exact (ListensLess.foldl (fun u name => listensLess_unlink name _ u s) changes.closed t).trans
    (hlinks changes.opened changes.readers _)

/-! ### Operations -/

theorem listensLess_update (t : ScopeTree) (s : ScopeId) (f : Bindings → Changes × Bindings) :
    t.ListensLess (t.update s f).2 := by
  unfold update
  split
  · exact (listensLess_setBindings _ _ _).trans (listensLess_follow _ s _)
  · exact .refl t

theorem listensLess_addDefinition {q : Position} {made : SlotId × List ReaderId × ScopeTree}
    (h : t.addDefinition s name q = some made) : t.ListensLess made.2.2 := by
  obtain ⟨scope, -, rfl⟩ := Option.map_eq_some_iff.mp h
  exact (listensLess_setBindings _ _ _).trans (listensLess_follow _ s _)

theorem listensLess_addReader {q : Position} {made : ReaderId × List ReaderId × ScopeTree}
    (h : t.addReader s name q = some made) : t.ListensLess made.2.2 := by
  obtain ⟨scope, -, rfl⟩ := Option.map_eq_some_iff.mp h
  exact (listensLess_setBindings _ _ _).trans (listensLess_follow _ s _)

theorem listensLess_removeDefinition (t : ScopeTree) (s : ScopeId) (id : SlotId) :
    t.ListensLess (t.removeDefinition s id).2 := by
  have herased : t.ListensLess (t.modify s fun scope =>
      { scope with definitionListeners := scope.definitionListeners.erase id }) :=
    .of_modify (fun _ => .refl _) mem_of_mem_erase
  exact herased.trans (listensLess_update _ s _)

theorem listensLess_removeReader (t : ScopeTree) (s : ScopeId) (r : ReaderId) :
    t.ListensLess (t.removeReader s r).2 := by
  have herased : t.ListensLess (t.modify s fun scope =>
      { scope with readerListeners := scope.readerListeners.erase r }) :=
    .of_modify (fun _ => fewer_erase _ _) id
  exact herased.trans (listensLess_update _ s _)

/-- No input listens to a reader that is removed. -/
theorem not_input_removeReader (t : ScopeTree) (s : ScopeId) (r : ReaderId) :
    .input c name ∉ (t.removeReader s r).2.listeners s r := by
  intro hl
  have herased := (listensLess_update (t.modify s fun scope =>
    { scope with readerListeners := scope.readerListeners.erase r }) s _).readers hl
  rw [listeners, get?_modify, if_pos rfl] at herased
  cases hs : t.get? s with
  | none => simp [hs] at herased
  | some scope => simp [hs] at herased

theorem listensLess_write (t : ScopeTree) (s : ScopeId) (id : SlotId) (v : SlotValue) :
    t.ListensLess (t.write s id v).2.2 := by
  unfold write
  split
  · exact listensLess_setBindings _ _ _
  · exact .refl t

/-- Nobody listens in a new scope. -/
theorem listensLess_child (t : ScopeTree) (parent : ScopeId) (name : String) (start : Position)
    (closed : Bool) : t.ListensLess (t.child parent name start closed).2 := by
  refine ⟨fun p r => ?_, fun {p r k} hk => ?_, fun {p id l} hl => ?_⟩
  · rw [inputs, listeners, get?_child]
    split
    · simp [inside]
    · exact .refl _
  · rw [listeners, get?_child] at hk
    split at hk
    · simp [inside] at hk
    · exact hk
  · rw [definitionListeners, get?_child] at hl
    split at hl
    · simp [inside] at hl
    · exact hl

theorem listensLess_remove (t : ScopeTree) (s : ScopeId) : t.ListensLess (t.remove s) := by
  unfold remove
  exact (ListensLess.foldl (fun u name => listensLess_unlink name _ u s) _ t).trans (.erase _ s)

end ScopeTree

end MathCanvas
