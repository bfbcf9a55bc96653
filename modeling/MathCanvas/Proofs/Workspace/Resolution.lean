import MathCanvas.Proofs.Scope.Resolution
import MathCanvas.Proofs.Workspace.Sweep

/-!
# What readers observe when nothing is in progress

Whenever a task is done, the imports of the workspace are in order, or the first task on the agenda
is to tell an importer what its reader observes at that time (`Ready`). Performing the next task
keeps this up (`Ready.step`), and the client begins an operation only when nothing is in progress.
So whatever operations were made (`Reached`), and whatever subscriptions did meanwhile, no link is
unsettled when the agenda is empty, and every reader observes what its name means
(`Reached.readerValue?_same_resolve`).
-/

namespace MathCanvas

namespace ScopeTree

variable {t t' : ScopeTree} {s : ScopeId} {name : String} {v : SlotValue}

/-- The value is what the reader of an import observes. -/
structure Current (t : ScopeTree) (s : ScopeId) (name : String) (v : SlotValue) : Prop where
  imports : ∀ {scope : Scope}, t.get? s = some scope →
    scope.closed = false ∧ scope.ancestors ≠ []
  value : ∀ {p : ScopeId} {r : ReaderId} {w : SlotValue}, t.Feeds p r s name →
    t.readerValue? p r = some w → v.same w

theorem WellTied.current (h : t.WellTied) {p : ScopeId} {r : ReaderId} (hf : t.Feeds p r s name)
    (hv : t.readerValue? p r = some v) : t.Current s name v where
  imports {scope} hs := by
    obtain ⟨scope', hs', -, hr⟩ := hf
    rw [hs] at hs'
    cases hs'
    obtain ⟨hwall, hanc, -⟩ := (h.exact id hs).imports_iff.mp ⟨r, hr⟩
    exact ⟨hwall, hanc⟩
  value hf' hw := by
    obtain ⟨rfl, rfl⟩ := feeds_unique hf hf'
    rw [hv, Option.some.injEq] at hw
    rw [hw]
    exact SlotValue.same_refl _

theorem Current.recede (h : t.Current s name v) (ht : t.WellTied) (ht' : t'.WellTied)
    (hrecedes : t.Recedes t') : t'.Current s name v where
  imports hs := by
    obtain ⟨scope, hscope, honward⟩ := hrecedes.exists_of_get? ht' hs
    rw [honward.closed, honward.ancestors]
    exact h.imports hscope
  value {p r w} hf hw := by
    have hlink := hrecedes.links hf
    obtain ⟨before, hbefore, hsame⟩ :=
      (hrecedes.passes p).told (Tied.given_of_feeds ht hlink) hw
    have hkept := hsame.resolve_right (by simp)
    exact SlotValue.same_trans (h.value hlink hbefore) (SlotValue.same_symm hkept)

end ScopeTree

namespace Workspace

variable {w w' : Workspace} {backend : Backend}

/-- The imports are in order, up to an importer that is told next. -/
inductive Ready (w : Workspace) : Prop
  | resting (coherent : w.Coherent fun _ _ => False)
  | telling {s : ScopeId} {name : String} {v : SlotValue} {rest : List Task}
      (agenda : w.agenda = .tell (.importer s name) v :: rest) (current : w.tree.Current s name v)
      (coherent : ({ w with agenda := rest } : Workspace).Coherent fun p r =>
        w.tree.Feeds p r s name)

theorem Ready.swept (h : w.Ready) (hs : w.Swept w') (ht : w.tree.WellTied) : w'.Ready := by
  cases h with
  | resting hcoherent => exact .resting (hcoherent.swept hs)
  | telling hagenda hcurrent hcoherent =>
    rename_i s name v rest
    refine .telling (hs.agenda.trans hagenda) (hcurrent.recede ht hs.tied hs.recedes) ?_
    have hswept : Swept { w with agenda := rest } { w' with agenda := rest } :=
      ⟨hs.tied, hs.recedes, hs.cell, hs.definitions, hs.readers, rfl⟩
    refine (hcoherent.swept hswept).mono fun p r hu hf => .inl ?_
    obtain ⟨c, n, hlink, -⟩ := hu
    obtain ⟨rfl, rfl⟩ := ScopeTree.Tied.feeds_inj ht hf (hs.recedes.links hlink)
    exact hlink

/-- Taking the first task from the agenda makes the readers due that it would tell about. -/
theorem Coherent.pop {task : Task} {rest : List Task} (h : w.Coherent fun _ _ => False)
    (hagenda : w.agenda = task :: rest) :
    ({ w with agenda := rest } : Workspace).Coherent fun p r =>
      ∃ readers, r ∈ readers ∧ task = .notifyReaders p readers where
  tied := h.tied
  cell := h.cell
  definition := h.definition
  reader := h.reader
  safe htask := h.safe (by rw [hagenda]; exact List.mem_cons_of_mem _ htask)
  noticed {p r} hu := by
    obtain ⟨readers, hr, hmem⟩ := (h.noticed hu).resolve_left id
    rw [hagenda] at hmem
    rcases List.mem_cons.mp hmem with heq | hmem
    · exact .inl ⟨readers, hr, heq.symm⟩
    · exact .inr ⟨readers, hr, hmem⟩

/-- Telling about the readers of a scope: the listeners of the first one are told next. If it feeds
an importer, this importer is its only listener, and otherwise none is an importer. -/
theorem Coherent.notifyReaders {s : ScopeId} {readers : List ReaderId}
    (h : w.Coherent fun p r => p = s ∧ r ∈ readers) :
    (w.perform (.notifyReaders s readers)).Ready := by
  cases readers with
  | nil => exact .resting (h.mono fun p r _ hdue => by simp at hdue)
  | cons r rest =>
  have hrest : ({ w with agenda := .notifyReaders s rest :: w.agenda } :
      Workspace).Coherent fun p x => p = s ∧ x = r := by
    have hpush : (w.push [.notifyReaders s rest]).Coherent fun p x => p = s ∧ x ∈ r :: rest :=
      h.push_one trivial
    refine hpush.mono ?_
    rintro p x - ⟨rfl, hx⟩
    rcases List.mem_cons.mp hx with rfl | hx
    · exact .inl ⟨rfl, rfl⟩
    · exact .inr ⟨rest, hx, List.mem_cons_self⟩
  -- a reader that feeds nobody is settled
  have hsettled : (∀ c n, ¬w.tree.Feeds s r c n) →
      ({ w with agenda := .notifyReaders s rest :: w.agenda } :
        Workspace).Coherent fun _ _ => False := by
    intro hnot
    refine hrest.mono ?_
    rintro p x ⟨c, n, hf, -⟩ ⟨rfl, rfl⟩
    exact absurd hf (hnot c n)
  unfold Workspace.perform
  simp only
  cases hnotice : w.tree.readerNotice? s r with
  | none =>
    refine .resting (hsettled fun c n hf => ?_)
    obtain ⟨around, scope, haround, -, hanchor, -⟩ := h.tied.fed hf
    obtain ⟨v, hv⟩ := (h.tied.consistent haround).exists_readerValue? hanchor
    simp [ScopeTree.readerNotice?, haround, hv] at hnotice
  | some notice =>
    obtain ⟨value, listeners⟩ := notice
    simp only [ScopeTree.readerNotice?, Option.pure_def, Option.bind_eq_bind,
      Option.bind_eq_some_iff, Option.some.injEq, Prod.mk.injEq] at hnotice
    obtain ⟨around, haround, value', hvalue, rfl, hlisteners⟩ := hnotice
    by_cases hfeeds : ∃ c n, w.tree.Feeds s r c n
    · obtain ⟨c, n, hf⟩ := hfeeds
      obtain ⟨around', scope, haround', -, -, hls⟩ := h.tied.fed hf
      rw [haround] at haround'
      cases haround'
      rw [hls, Option.getD_some] at hlisteners
      subst hlisteners
      refine .telling rfl (ScopeTree.WellTied.current h.tied hf ?_) (hrest.mono ?_)
      · show w.tree.readerValue? s r = some value'
        rw [ScopeTree.readerValue?, haround, Option.bind_some, hvalue]
      · rintro p x - ⟨rfl, rfl⟩
        exact .inl hf
    · push Not at hfeeds
      have hpush : (({ w with agenda := .notifyReaders s rest :: w.agenda } : Workspace).push
          (listeners.map (Task.tell · value'))).Coherent fun _ _ => False := by
        refine (hsettled hfeeds).push fun task htask => ?_
        obtain ⟨l, hl, rfl⟩ := List.mem_map.mp htask
        cases l with
        | importer c n =>
          cases hls : around.readerListeners[r]? with
          | none =>
            rw [hls, Option.getD_none] at hlisteners
            simp [← hlisteners] at hl
          | some ls =>
            rw [hls, Option.getD_some] at hlisteners
            exact absurd (h.tied.feeds haround hls (hlisteners ▸ hl)) (hfeeds c n)
        | input c name => trivial
        | client k => trivial
      have hpush' : (w.push (listeners.map (Task.tell · value') ++
          [.notifyReaders s rest])).Coherent fun _ _ => False := by
        unfold Workspace.push at hpush ⊢
        simpa only [List.append_assoc, List.singleton_append] using hpush
      exact .resting hpush'

/-- Telling an importer settles its link. -/
theorem Coherent.tellImporter {s : ScopeId} {name : String} {v : SlotValue}
    (h : w.Coherent fun p r => w.tree.Feeds p r s name) (hcurrent : w.tree.Current s name v) :
    (w.tell v (.importer s name)).Coherent fun _ _ => False := by
  unfold Workspace.tell
  simp only
  cases hs : w.tree.get? s with
  | none =>
    refine h.mono ?_
    rintro p r - ⟨scope, hscope, -⟩
    rw [hs] at hscope
    cases hscope
  | some scope =>
    obtain ⟨hwall, hanc⟩ := hcurrent.imports hs
    obtain ⟨ht, hsettled⟩ := ScopeTree.advances_setImported h.tied hs hwall hanc
      fun _ _ _ hf hw => hcurrent.value hf hw
    refine (h.spread ht).mono fun p r hu hf => ?_
    exact absurd hu (hsettled p r hf)

theorem Ready.perform {task : Task} {rest : List Task} (h : w.Ready)
    (hagenda : w.agenda = task :: rest) :
    (({ w with agenda := rest } : Workspace).perform task).Ready := by
  cases h with
  | resting hcoherent =>
    have hpop := hcoherent.pop hagenda
    by_cases hnotice : ∃ s readers, task = .notifyReaders s readers
    · obtain ⟨s, readers, rfl⟩ := hnotice
      refine Coherent.notifyReaders (hpop.mono ?_)
      rintro p r - ⟨readers', hr, heq⟩
      cases heq
      exact .inl ⟨rfl, hr⟩
    · push Not at hnotice
      have hsafe : task.Safe w.tree := hcoherent.safe (by rw [hagenda]; exact List.mem_cons_self)
      refine .resting ((hpop.mono ?_).perform hsafe hnotice)
      rintro p r - ⟨readers, -, heq⟩
      exact absurd heq (hnotice p readers)
  | telling hagenda' hcurrent hcoherent =>
    rw [hagenda'] at hagenda
    cases hagenda
    exact .resting (hcoherent.tellImporter hcurrent)

theorem Ready.tied (h : w.Ready) : w.tree.WellTied := by
  cases h with
  | resting hcoherent => exact hcoherent.tied
  | telling _ _ hcoherent => exact hcoherent.tied

theorem Ready.step (h : w.Ready) : w.step.Ready := by
  unfold Workspace.step
  split
  · exact h
  · rename_i task rest hagenda
    have hperform := h.perform hagenda
    exact hperform.swept (swept_sweep hperform.tied) hperform.tied

/-! ### Runs -/

/-- The workspaces that the client can get to. An operation begins when nothing is in progress. -/
inductive Reached (backend : Backend) : Workspace → Prop
  | start : Reached backend { backend }
  | begin {w : Workspace} (op : Op) : Reached backend w → w.agenda = [] →
      Reached backend ({ w with history := [] }.operate op).2.sweep
  | step {w : Workspace} : Reached backend w → Reached backend w.step

theorem Reached.settle (h : Reached backend w) (limit : Nat) :
    Reached backend (w.settle limit) := by
  induction limit generalizing w with
  | zero => rwa [Workspace.settle]
  | succ limit ih =>
    unfold Workspace.settle
    split
    · exact h
    · exact h
    · rename_i heq _
      cases heq
      exact ih h.step

/-- The client gets from one workspace to the next by making an operation and waiting for all that
it sets off. -/
theorem Reached.apply (h : Reached backend w) (hquiet : w.agenda = []) (op : Op) :
    Reached backend (w.apply op).2 :=
  (Reached.begin op h hquiet).settle taskLimit

theorem get?_root_eq_some {s : ScopeId} {scope : Scope} (h : ScopeTree.root.get? s = some scope) :
    s = ScopeTree.rootId ∧
      scope = { name := "root", closed := false, start := .origin, ancestors := [] } := by
  have hlookup := h
  rw [ScopeTree.get?, ScopeTree.root, lookup_insert] at hlookup
  split at hlookup
  · rename_i hs
    exact ⟨hs.symm, (Option.some.inj hlookup).symm⟩
  · simp at hlookup

/-- In the root alone, nothing is imported. -/
theorem wellTied_root : ScopeTree.root.WellTied := by
  have hfeeds : ∀ {p r s name}, ¬ScopeTree.root.Feeds p r s name := by
    rintro p r s name ⟨scope, hs, -, hr⟩
    obtain ⟨-, rfl⟩ := get?_root_eq_some hs
    simp at hr
  refine ⟨fun hs => ?_, fun hs hanc => ?_, fun hs => ?_, fun hs hls => ?_, fun hs _ => ?_,
    fun hf => absurd hf hfeeds, fun hs hls => ?_, fun hs hls => ?_, fun {s scope name} _ hs => ?_⟩
  · obtain ⟨rfl, -⟩ := get?_root_eq_some hs
    exact Nat.zero_lt_one
  · obtain ⟨-, rfl⟩ := get?_root_eq_some hs
    cases hanc
  · obtain ⟨-, rfl⟩ := get?_root_eq_some hs
    exact Bindings.consistent_empty
  · obtain ⟨-, rfl⟩ := get?_root_eq_some hs
    simp at hls
  · obtain ⟨-, rfl⟩ := get?_root_eq_some hs
    simp
  · obtain ⟨-, rfl⟩ := get?_root_eq_some hs
    simp at hls
  · obtain ⟨-, rfl⟩ := get?_root_eq_some hs
    simp at hls
  · obtain ⟨-, rfl⟩ := get?_root_eq_some hs
    exact ScopeTree.exact_of_unused (by simp [Bindings.slotsOf]) (by simp)

theorem Reached.ready (h : Reached backend w) : w.Ready := by
  induction h with
  | start =>
    refine .resting ⟨wellTied_root, fun hc => ?_, fun hh => ?_, fun hh => ?_, fun htask => ?_,
      fun hu => ?_⟩
    · simp [cell?] at hc
    · simp at hh
    · simp at hh
    · simp at htask
    · obtain ⟨s, name, ⟨scope, hs, -, hr⟩, -⟩ := hu
      obtain ⟨-, rfl⟩ := get?_root_eq_some hs
      simp at hr
  | @begin w op _ hagenda ih =>
    cases ih with
    | resting hcoherent =>
      have hhistory : ({ w with history := [] } : Workspace).Coherent fun _ _ => False :=
        hcoherent.of_same rfl rfl rfl rfl rfl
      have hoperate := hhistory.operate op
      exact .resting (hoperate.swept (swept_sweep hoperate.tied))
    | telling hagenda' =>
      rw [hagenda'] at hagenda
      cases hagenda
  | step _ ih => exact ih.step

/-- When nothing is in progress, every reader observes what its name means at its position. -/
theorem Reached.readerValue?_same_resolve (h : Reached backend w) (hquiet : w.agenda = []) {s : ScopeId}
    {scope : Scope} (hs : w.tree.get? s = some scope) {r : ReaderId} {reader : Reader}
    (hr : scope.bindings.readers[r]? = some reader) :
    ∃ v, scope.bindings.readerValue? r = some v ∧
      v.same (w.tree.resolve s reader.name reader.position) := by
  cases h.ready with
  | resting hcoherent =>
    refine ScopeTree.WellTied.readerValue?_same hcoherent.tied (fun p r hu => ?_) hs hr
    obtain ⟨readers, -, hmem⟩ := (hcoherent.noticed hu).resolve_left id
    simp [hquiet] at hmem
  | telling hagenda =>
    rw [hagenda] at hquiet
    cases hquiet

/-- A definition in the root gets a value after a reader in an inner scope was made. -/
theorem readerValue?_same_resolve_inner :
    let w := ((((({ backend := .recording } : Workspace).apply (.addDefinition 0 "x" .origin)).2.apply
      (.child 0 "inner" .origin false)).2.apply (.addReader 1 "x" .origin)).2.apply
      (.set 0 (.symbol "a"))).2
    ∃ scope reader v, w.tree.get? 1 = some scope ∧ scope.bindings.readers[1]? = some reader ∧
      scope.bindings.readerValue? 1 = some v ∧ v = .defined (.symbol "a") ∧
      v.same (w.tree.resolve 1 reader.name reader.position) := by
  intro w
  have hdefinition := Reached.start.apply (rfl : ({ backend := .recording } : Workspace).agenda = [])
    (.addDefinition 0 "x" .origin)
  have hchild := hdefinition.apply (by decide +kernel) (.child 0 "inner" .origin false)
  have hreader := hchild.apply (by decide +kernel) (.addReader 1 "x" .origin)
  have hset := hreader.apply (by decide +kernel) (.set 0 (.symbol "a"))
  obtain ⟨reader, hbound⟩ : ∃ reader, (w.tree.get? 1).bind (·.bindings.readers[1]?) = some reader :=
    Option.isSome_iff_exists.mp (by decide +kernel)
  obtain ⟨scope, hscope, hr⟩ := Option.bind_eq_some_iff.mp hbound
  have hvalue : w.tree.readerValue? 1 1 = some (.defined (.symbol "a")) := by decide +kernel
  rw [ScopeTree.readerValue?, hscope, Option.bind_some] at hvalue
  obtain ⟨v, hv, hsame⟩ := hset.readerValue?_same_resolve (by decide +kernel) hscope hr
  rw [hv] at hvalue
  exact ⟨scope, reader, v, hscope, hr, hv, Option.some.inj hvalue, hsame⟩

end Workspace

end MathCanvas
