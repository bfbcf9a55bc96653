import MathCanvas.Proofs.Scope.Audience
import MathCanvas.Proofs.Workspace.Announces
import MathCanvas.Proofs.Workspace.Hearing

/-!
# Cells are informed about their inputs

An input listens to the reader that was made for it, and nobody else listens to that reader, not even
the client. When the reader observes another value, the cell is told before anything else is done, so
that it remembers what its inputs observe, unless it is about to be told (`Workspace.Informed`). When
no notice is on the agenda, it remembers just that (`Workspace.Informed.last_same`). Reactions of the
client do not matter as long as they enroll nobody (`Workspace.Informed.perform`).
-/

namespace MathCanvas

namespace Workspace

variable {w w' : Workspace} {due : ScopeId → ReaderId → Prop} {c : CellId} {cell cell' : Cell}
  {name : String} {i i' : CellInput} {s p : ScopeId} {r : ReaderId} {task : Task}
  {agenda rest : List Task} {now v : SlotValue}

/-! ### What becomes of an input -/

/-- Where an input of a cell comes from when a task has been performed. -/
inductive Recalls (w : Workspace) (task : Task) (w' : Workspace) (c : CellId) (name : String)
    (i' : CellInput) : Prop
  /-- The cell had it before, and remembers what it did, unless it has been told about it. -/
  | kept {cell : Cell} {i : CellInput} (present : w.cell? c = some cell)
      (input : cell.inputs[name]? = some i) (scope : i'.scope = i.scope)
      (reader : i'.reader = i.reader)
      (last : (∀ v, task ≠ .tell (.input c name) v) → i'.last = i.last)
      (told : ∀ v, task = .tell (.input c name) v → i'.last.same v)
  /-- It has been made, and remembers what it observes. -/
  | made (alone : w'.tree.listeners i'.scope i'.reader = [.input c name])
      (current : ∀ now, w'.tree.readerValue? i'.scope i'.reader = some now → i'.last.same now)

/-- A cell that is told of a value remembers it. -/
theorem last_tell (hcell' : (w.tell v (.input c name)).cell? c = some cell')
    (hi' : cell'.inputs[name]? = some i') : i'.last.same v := by
  unfold tell at hcell'
  simp only at hcell'
  split at hcell'
  · rename_i hnone
    cases hnone.symm.trans hcell'
  rename_i cell hcell
  split at hcell'
  · rename_i hi
    cases hcell.symm.trans hcell'
    cases hi.symm.trans hi'
  rename_i i hi
  split at hcell'
  · rename_i hequal
    cases hcell.symm.trans hcell'
    cases hi.symm.trans hi'
    exact SlotValue.same_of_valueEq hequal
  have hnoted : ∀ {new : Cell}, new.inputs = cell.inputs.insert name { i with last := v } →
      new = cell' → i'.last.same v := by
    rintro new hinputs rfl
    rw [hinputs, lookup_insert_self] at hi'
    cases hi'
    exact SlotValue.same_refl v
  split at hcell'
  · exact hnoted rfl (Option.some.inj ((cell?_putCell ..).symm.trans hcell'))
  · exact hnoted rfl (Option.some.inj ((cell?_putCell ..).symm.trans hcell'))

/-- A new cell has nothing but what it is given. -/
theorem cell?_newCell {position : Position} {expression : Expr} {scope : Option ScopeId}
    {automatic : Bool} (hcell' : (w.operate (.newCell position expression scope automatic)).2.cell?
      w.nextCell = some cell') :
    ∃ generation, cell' = { expression, position, automatic, generation } := by
  unfold operate at hcell'
  simp only at hcell'
  unfold setScope at hcell'
  split at hcell'
  · cases (cell?_putCell ..).symm.trans hcell'
    exact ⟨0, rfl⟩
  · cases (cell?_putCell ..).symm.trans hcell'
    exact ⟨1, rfl⟩

/-- Inputs come from before, unless one is added. -/
theorem recalls_perform (hadd : ∀ s p, task ≠ .cell c (.addInput s name p))
    (hcell' : (w.perform task).cell? c = some cell') (hi' : cell'.inputs[name]? = some i') :
    w.Recalls task (w.perform task) c name i' := by
  by_cases hmakes : w.Makes c task
  · obtain ⟨rfl, position, expression, scope, automatic, rfl⟩ := hmakes
    obtain ⟨generation, rfl⟩ := cell?_newCell hcell'
    simp at hi'
  obtain ⟨cell, hcell⟩ := Option.ne_none_iff_exists'.mp
    ((perform_turn hmakes).numbered.2 (by rw [hcell']; exact Option.some_ne_none _))
  have hlater : ∀ v, task = .tell (.input c name) v → i'.last.same v := by
    rintro v rfl
    exact last_tell hcell' hi'
  have hsame : cell.inputs[name]? = some i' → w.Recalls task (w.perform task) c name i' :=
    fun hi => .kept hcell hi rfl rfl (fun _ => rfl) hlater
  cases perform_alters hcell hmakes hcell' with
  | @told n i v hi =>
    rw [lookup_insert] at hi'
    split at hi'
    · rename_i hn
      subst hn
      cases hi'
      exact .kept hcell hi rfl rfl (fun hnot => absurd rfl (hnot v)) hlater
    · exact hsame hi'
  | evaluate => exact hsame ((cell.begin_same _).1 ▸ hi')
  | endBatch outer => exact hsame ((cell.resumed_same outer).1 ▸ hi')
  | synchronize input => exact hsame (input hi')
  | @addInput s n p i =>
    rw [lookup_insert] at hi'
    split at hi'
    · rename_i hn
      subst hn
      exact absurd rfl (hadd s p)
    · exact hsame hi'
  | unregister => simp [Cell.unregistered] at hi'
  | _ => exact hsame hi'

/-- An input that is added is the only one who listens to its reader. -/
theorem listeners_addInput {readers : List ReaderId} {tree : ScopeTree} {y : Position}
    (h : w.tree.WellTied) (hadd : w.tree.addReader s name y = some (r, readers, tree))
    (l : Listener) : (tree.listenToReader s r l).listeners s r = [l] := by
  have hs : tree.get? s ≠ none := by
    obtain ⟨scope, hs, heq⟩ := Option.map_eq_some_iff.mp hadd
    have hshape := ScopeTree.sameShape_addReader hadd
    exact get?_ne_none_of_shape? (hshape.shape?_eq s) (by rw [hs]; rintro ⟨⟩)
  rw [ScopeTree.listeners_listenToReader_self hs, ScopeTree.listeners_addReader h hadd,
    List.nil_append]

theorem recalls_addInput {y : Position} (h : w.tree.WellTied)
    (hcell' : (w.perform (.cell c (.addInput s name y))).cell? c = some cell')
    (hi' : cell'.inputs[name]? = some i') :
    w.Recalls (.cell c (.addInput s name y)) (w.perform (.cell c (.addInput s name y))) c name
      i' := by
  cases hcell : w.cell? c with
  | none =>
    rw [perform_cell_of_none hcell] at hcell'
    cases hcell.symm.trans hcell'
  | some cell =>
    rw [perform_cell hcell] at hcell' ⊢
    have hsame : cell' = cell → w.Recalls (.cell c (.addInput s name y))
        (w.performCell c cell (.addInput s name y)) c name i' := by
      rintro rfl
      exact .kept hcell hi' rfl rfl (fun _ => rfl) (by simp)
    unfold performCell at hcell' hsame ⊢
    simp only at hcell' hsame ⊢
    split at hcell'
    · exact hsame (Option.some.inj (hcell'.symm.trans hcell))
    rename_i hmissing
    rw [if_neg hmissing] at hsame ⊢
    split at hcell'
    · rename_i hadd
      simp only [hadd] at hsame ⊢
      exact hsame (Option.some.inj (hcell'.symm.trans hcell))
    rename_i reader readers tree hadd
    simp only [hadd] at hsame ⊢
    cases (cell?_putCell ..).symm.trans hcell'
    cases (lookup_insert_self ..).symm.trans hi'
    refine .made (listeners_addInput h hadd _) fun now hnow => SlotValue.same_of_eq ?_
    exact congrArg (Option.getD · _) hnow

/-- An input that listens did so before, unless it is added. -/
theorem listens_perform (h : w.tree.WellTied)
    (hlent : ∀ handle ∈ w.readers, w.tree.Lent handle.scope handle.reader)
    (hl : .input c name ∈ (w.perform task).tree.listeners p r) :
    (.input c name ∈ w.tree.listeners p r ∧ task ≠ .removeReader p r) ∨
      (w.perform task).tree.listeners p r = [.input c name] ∧ ¬(w.perform task).Lends p r := by
  by_cases hadd : ∃ c s name y, task = .cell c (.addInput s name y)
  · obtain ⟨c', s, n, y, rfl⟩ := hadd
    cases hcell : w.cell? c' with
    | none =>
      rw [perform_cell_of_none hcell] at hl
      exact .inl ⟨hl, nofun⟩
    | some cell =>
      rw [perform_cell hcell] at hl ⊢
      unfold performCell at hl ⊢
      simp only at hl ⊢
      split at hl
      · exact .inl ⟨hl, nofun⟩
      rename_i hmissing
      rw [if_neg hmissing]
      split at hl
      · exact .inl ⟨hl, nofun⟩
      rename_i reader readers tree hadd
      rcases ScopeTree.mem_listeners_listenToReader hl with ⟨rfl, rfl, heq⟩ | hbefore
      · refine .inr ⟨heq ▸ listeners_addInput h hadd _, ?_⟩
        rintro ⟨handle, hmem, rfl, rfl⟩
        exact ScopeTree.not_given_addReader h hadd (hlent handle hmem).given
      · exact .inl ⟨(ScopeTree.listensLess_addReader hadd).readers hbefore, nofun⟩
  · have hheeds : w.Heeds (fun _ => True) True (w.perform task) :=
      w.perform_heeds (fun _ _ => trivial) (fun _ => trivial) fun c s name y heq =>
        hadd ⟨c, s, name, y, heq⟩
    refine .inl ⟨hheeds.readers hl, ?_⟩
    rintro rfl
    exact ScopeTree.not_input_removeReader w.tree p r hl

/-- Whoever listens for a cell that stays goes on to do so while its scope stays. -/
theorem listens_sweep (h : w.tree.WellTied) (hcell : w.sweep.cell? c = some cell)
    (hscope : cell.scope = some p) (hl : .input c name ∈ w.tree.listeners p r) :
    .input c name ∈ w.sweep.tree.listeners p r := by
  have hignored : ∀ (c' : CellId) (inputs : List (String × CellInput)) (t : ScopeTree), c' ≠ c →
      .input c name ∈ t.listeners p r → .input c name ∈ (inputs.foldl (fun tree entry =>
        tree.ignoreReader entry.2.scope entry.2.reader (.input c' entry.1)) t).listeners p r := by
    intro c' inputs
    induction inputs with
    | nil => exact fun _ _ => id
    | cons entry more ih =>
      intro t hne hl
      exact ih _ hne (ScopeTree.mem_listeners_ignoreReader (by simp [hne.symm]) hl)
  have hforgotten : ∀ (entries : List (CellId × Cell)) (v : Workspace), v.refersToCell c = true →
      .input c name ∈ v.tree.listeners p r → .input c name ∈ (entries.foldl (fun v entry =>
        if v.refersToCell entry.1 then v
        else v.forgetCell entry.1 entry.2) v).tree.listeners p r := by
    intro entries
    induction entries with
    | nil => exact fun _ _ => id
    | cons entry more ih =>
      intro v hrefers hl
      rw [List.foldl_cons]
      split
      · exact ih v hrefers hl
      · rename_i hgone
        refine ih (v.forgetCell entry.1 entry.2) hrefers (hignored _ _ _ ?_ hl)
        rintro rfl
        exact hgone hrefers
  have hkept := hforgotten w.cells.toList w (refersToCell_of_sweep hcell) hl
  have htied := (swept_forgetCells w.cells.toList h).tied
  have hmem : p ∈ w.sweep.referredScopes := by
    have hvalue : cell ∈ w.sweep.cells.values := (mem_values_iff_lookup _ _).mpr ⟨c, hcell⟩
    exact List.mem_append_left _
      (List.mem_append_right _ (List.mem_filterMap.mpr ⟨cell, hvalue, hscope⟩))
  exact (ScopeTree.listeners_removeAll (List.mem_append_left _ hmem) _ htied.chained
    (ScopeTree.lent_of_input htied hkept)).symm ▸ hkept

theorem Ready.coherent (h : w.Ready) (hagenda : w.agenda = task :: rest) :
    ∃ due, ({ w with agenda := rest } : Workspace).Coherent due := by
  cases h with
  | resting coherent => exact ⟨_, coherent.pop hagenda⟩
  | telling agenda _ coherent =>
    cases agenda.symm.trans hagenda
    exact ⟨_, coherent⟩

/-! ### Being informed -/

/-- What cells remember of their inputs is what those observe, or the cells are about to be told. -/
structure Informed (w : Workspace) (agenda : List Task) : Prop where
  alone : ∀ {p : ScopeId} {r : ReaderId} {c : CellId} {name : String} {l : Listener},
    .input c name ∈ w.tree.listeners p r → l ∈ w.tree.listeners p r → l = .input c name
  /-- No reader of the client's informs a cell. -/
  foreign : ∀ {p : ScopeId} {r : ReaderId} {c : CellId} {name : String},
    .input c name ∈ w.tree.listeners p r → ¬w.Lends p r
  heard : ∀ {c : CellId} {cell : Cell} {name : String} {i : CellInput}, w.cell? c = some cell →
    cell.inputs[name]? = some i → .input c name ∈ w.tree.listeners i.scope i.reader
  silent : ∀ c name v, .tell (.input c name) v ∉ agenda.tail
  told : ∀ {c : CellId} {cell : Cell} {name : String} {i : CellInput} {v now : SlotValue},
    agenda.head? = some (.tell (.input c name) v) → w.cell? c = some cell →
    cell.inputs[name]? = some i → w.tree.readerValue? i.scope i.reader = some now → v.same now
  remembered : ∀ {c : CellId} {cell : Cell} {name : String} {i : CellInput} {now : SlotValue},
    w.cell? c = some cell → cell.inputs[name]? = some i →
    w.tree.readerValue? i.scope i.reader = some now → i.last.same now ∨
      (∃ readers, i.reader ∈ readers ∧ .notifyReaders i.scope readers ∈ agenda) ∨
      ∃ v, agenda.head? = some (.tell (.input c name) v)

namespace Informed

/-- When no notice is on the agenda, a cell remembers what its inputs observe. -/
theorem last_same (h : w.Informed agenda) (hnotice : ∀ s readers, .notifyReaders s readers ∉ agenda)
    (htell : ∀ l v, .tell l v ∉ agenda) (hcell : w.cell? c = some cell)
    (hi : cell.inputs[name]? = some i) (hnow : w.tree.readerValue? i.scope i.reader = some now) :
    i.last.same now := by
  rcases h.remembered hcell hi hnow with hsame | ⟨readers, -, hmem⟩ | ⟨v, hhead⟩
  · exact hsame
  · exact absurd hmem (hnotice _ _)
  · exact absurd (List.mem_of_mem_head? hhead) (htell _ _)

theorem start (backend : Backend) : ({ backend } : Workspace).Informed [] where
  alone {p r c name l} hinput _ := by
    cases hs : ScopeTree.root.get? p with
    | none => simp [ScopeTree.listeners, hs] at hinput
    | some scope =>
      obtain ⟨-, rfl⟩ := get?_root_eq_some hs
      simp [ScopeTree.listeners, hs] at hinput
  foreign _ := by rintro ⟨handle, hmem, -⟩; simp at hmem
  heard hcell := by simp [cell?] at hcell
  silent := by simp
  told hhead := by simp at hhead
  remembered hcell := by simp [cell?] at hcell

theorem call (h : w.Informed w.agenda) (hquiet : w.agenda = []) (op : Op) :
    (w.call op).Informed (w.call op).agenda where
  alone := h.alone
  foreign := h.foreign
  heard := h.heard
  silent := by simp [Workspace.call]
  told hhead := by simp [Workspace.call] at hhead
  remembered hcell hi hnow := by
    refine .inl ((h.remembered hcell hi hnow).resolve_right ?_)
    simp [hquiet]

/-- A task that announces what it changes leaves the cells informed. -/
theorem announce (h : w.Informed (task :: w.agenda)) (hannounces : w.Announces task w')
    (htied : w.tree.WellTied)
    (hlent : ∀ {c : CellId} {cell : Cell} {name : String} {i : CellInput}, w.cell? c = some cell →
      cell.inputs[name]? = some i →
      w.tree.Lent i.scope i.reader ∧ task ≠ .removeReader i.scope i.reader)
    (hnotice : ∀ s readers, task ≠ .notifyReaders s readers)
    (hlistens : ∀ {p : ScopeId} {r : ReaderId} {c : CellId} {name : String},
      .input c name ∈ w'.tree.listeners p r →
        (.input c name ∈ w.tree.listeners p r ∧ task ≠ .removeReader p r) ∨
          w'.tree.listeners p r = [.input c name] ∧ ¬w'.Lends p r)
    (hrecalls : ∀ {c : CellId} {cell' : Cell} {name : String} {i' : CellInput},
      w'.cell? c = some cell' → cell'.inputs[name]? = some i' → w.Recalls task w' c name i') :
    w'.Informed w'.agenda := by
  obtain ⟨tasks, hagenda, hdiscreet⟩ := hannounces.agenda
  have hsilent : ∀ c name v, .tell (.input c name) v ∉ w'.agenda := by
    intro c name v hmem
    rw [hagenda] at hmem
    exact (List.mem_append.mp hmem).elim (fun hin => hdiscreet _ hin) (h.silent c name v)
  refine ⟨fun {p r c name l} hinput hl => ?_, fun {p r c name} hinput => ?_,
    fun {c cell' name i'} hcell' hi' => ?_,
    fun c name v hmem => hsilent c name v (List.mem_of_mem_tail hmem),
    fun hhead => absurd (List.mem_of_mem_head? hhead) (hsilent _ _ _),
    fun {c cell' name i' now} hcell' hi' hnow => ?_⟩
  · rcases hlistens hinput with ⟨hbefore, hne⟩ | ⟨hnew, -⟩
    · rw [hannounces.attends (ScopeTree.lent_of_input htied hbefore) hne (h.foreign hbefore)] at hl
      exact h.alone hbefore hl
    · rw [hnew] at hl
      exact List.mem_singleton.mp hl
  · rcases hlistens hinput with ⟨hbefore, -⟩ | ⟨-, hforeign⟩
    · intro hlends
      refine (hannounces.lends hlends).elim (h.foreign hbefore) fun hfresh => hfresh ?_
      exact (ScopeTree.lent_of_input htied hbefore).given
    · exact hforeign
  · cases hrecalls hcell' hi' with
    | @kept cell i hcell hi hscope hreader =>
      obtain ⟨hgiven, hne⟩ := hlent hcell hi
      rw [hscope, hreader, hannounces.attends hgiven hne (h.foreign (h.heard hcell hi))]
      exact h.heard hcell hi
    | made halone => exact halone ▸ List.mem_cons_self
  · cases hrecalls hcell' hi' with
    | made _ hcurrent => exact .inl (hcurrent now hnow)
    | @kept cell i hcell hi hscope hreader hlast htold =>
      rw [hscope, hreader] at hnow ⊢
      obtain ⟨before, hbefore, hsame | hnotified⟩ :=
        hannounces.told (hlent hcell hi).1.given hnow
      · by_cases htell : ∃ v, task = .tell (.input c name) v
        · obtain ⟨v, rfl⟩ := htell
          have hv : v.same before := h.told rfl hcell hi hbefore
          refine .inl (SlotValue.same_trans (htold v rfl) (SlotValue.same_trans hv ?_))
          exact SlotValue.same_symm hsame
        rw [hlast fun v heq => htell ⟨v, heq⟩]
        rcases h.remembered hcell hi hbefore with hremembered | ⟨readers, hr, hmem⟩ | ⟨v, hhead⟩
        · exact .inl (SlotValue.same_trans hremembered (SlotValue.same_symm hsame))
        · refine .inr (.inl ⟨readers, hr, ?_⟩)
          rw [hagenda]
          exact List.mem_append_right _
            ((List.mem_cons.mp hmem).resolve_left fun heq => hnotice _ _ heq.symm)
        · exact absurd ⟨v, Option.some.inj hhead⟩ htell
      · exact .inr (.inl hnotified)

/-- Of a reader's listeners, an input that is told is the only one. -/
theorem notifyReaders {readers : List ReaderId}
    (h : w.Informed (.notifyReaders s readers :: w.agenda)) (hsolo : w.tree.Solo)
    (hcurrent : ∀ {p : ScopeId} {r : ReaderId} {c : CellId} {name : String} {cell : Cell}
      {i : CellInput}, .input c name ∈ w.tree.listeners p r → w.cell? c = some cell →
        cell.inputs[name]? = some i → i.scope = p ∧ i.reader = r) :
    (w.perform (.notifyReaders s readers)).Informed
      (w.perform (.notifyReaders s readers)).agenda := by
  have hquiet : ∀ c name v, .tell (.input c name) v ∉ w.agenda := h.silent
  have hbehind : ∀ {c : CellId} {cell : Cell} {name : String} {i : CellInput} {now : SlotValue},
      w.cell? c = some cell → cell.inputs[name]? = some i →
      w.tree.readerValue? i.scope i.reader = some now → i.last.same now ∨
        (i.scope = s ∧ i.reader ∈ readers) ∨
          ∃ readers, i.reader ∈ readers ∧ .notifyReaders i.scope readers ∈ w.agenda := by
    intro c cell name i now hcell hi hnow
    rcases h.remembered hcell hi hnow with hsame | ⟨later, hr, hmem⟩ | ⟨v, hhead⟩
    · exact .inl hsame
    · rcases List.mem_cons.mp hmem with heq | hmem
      · cases heq
        exact .inr (.inl ⟨rfl, hr⟩)
      · exact .inr (.inr ⟨later, hr, hmem⟩)
    · cases hhead
  cases readers with
  | nil =>
    refine ⟨h.alone, h.foreign, h.heard,
      fun c name v hmem => hquiet c name v (List.mem_of_mem_tail hmem),
      fun hhead => absurd (List.mem_of_mem_head? hhead) (hquiet _ _ _), fun hcell hi hnow => ?_⟩
    refine (hbehind hcell hi hnow).imp_right fun hnotified => .inl ?_
    exact hnotified.resolve_left fun hmem => by cases hmem.2
  | cons r later =>
    have hlater : ∀ {i : CellInput}, i.scope = s ∧ i.reader ∈ r :: later →
        i.scope = s ∧ i.reader = r ∨
          ∃ readers, i.reader ∈ readers ∧ .notifyReaders i.scope readers ∈
            Task.notifyReaders s later :: w.agenda := by
      rintro i ⟨rfl, hmem⟩
      exact (List.mem_cons.mp hmem).imp (⟨rfl, ·⟩) fun hr => ⟨later, hr, List.mem_cons_self⟩
    unfold perform
    simp only
    cases hnotice : w.tree.readerNotice? s r with
    | none =>
      refine ⟨h.alone, h.foreign, h.heard, fun c name v hmem => hquiet c name v hmem, fun hhead => ?_,
        fun hcell hi hnow => ?_⟩
      · cases hhead
      · refine (hbehind hcell hi hnow).imp_right fun hnotified => .inl ?_
        rcases hnotified with hhere | ⟨readers, hr, hmem⟩
        · refine (hlater hhere).resolve_left ?_
          rintro ⟨rfl, rfl⟩
          cases (ScopeTree.readerNotice?_of_readerValue? hnow).symm.trans hnotice
        · exact ⟨readers, hr, List.mem_cons_of_mem _ hmem⟩
    | some notice =>
      obtain ⟨value, listeners⟩ := notice
      obtain ⟨-, hlisteners⟩ := ScopeTree.eq_of_readerNotice? hnotice
      have hagenda : (w.push (listeners.map (Task.tell · value) ++
          [.notifyReaders s later])).agenda =
            listeners.map (Task.tell · value) ++ (.notifyReaders s later :: w.agenda) := by
        rw [push, List.append_assoc, List.singleton_append]
      have honly : ∀ {c name}, .input c name ∈ listeners → listeners = [.input c name] := by
        subst hlisteners
        exact fun hmem => hsolo.eq_singleton (fun hl => h.alone hmem hl) hmem
      refine ⟨h.alone, h.foreign, h.heard, fun c name v hmem => ?_,
        fun {c cell name i v now} hhead hcell hi hnow => ?_,
        fun {c cell name i now} hcell hi hnow => ?_⟩
      · rw [hagenda] at hmem
        cases listeners with
        | nil => exact hquiet c name v hmem
        | cons l others =>
          rcases List.mem_append.mp hmem with hmem | hmem
          · obtain ⟨m, hm, heq⟩ := List.mem_map.mp hmem
            cases heq
            have hnil := (List.cons.inj (honly (List.mem_cons_of_mem _ hm))).2
            rw [hnil] at hm
            cases hm
          · exact hquiet c name v ((List.mem_cons.mp hmem).resolve_left (by rintro ⟨⟩))
      · rw [hagenda] at hhead
        cases listeners with
        | nil => cases hhead
        | cons l others =>
          cases hhead
          obtain ⟨rfl, rfl⟩ := hcurrent (hlisteners ▸ List.mem_cons_self) hcell hi
          have hvalue : w.tree.readerNotice? i.scope i.reader = some (now, _) :=
            ScopeTree.readerNotice?_of_readerValue? hnow
          rw [hnotice] at hvalue
          exact SlotValue.same_of_eq (Prod.mk.inj (Option.some.inj hvalue)).1
      · refine (hbehind hcell hi hnow).imp_right fun hnotified => ?_
        rw [hagenda]
        rcases hnotified with hhere | ⟨readers, hr, hmem⟩
        · rcases hlater hhere with ⟨rfl, rfl⟩ | ⟨readers, hr, hmem⟩
          · have hheard : .input c name ∈ listeners := hlisteners ▸ h.heard hcell hi
            exact .inr ⟨value, by rw [honly hheard]; rfl⟩
          · exact .inl ⟨readers, hr, List.mem_append_right _ hmem⟩
        · exact .inl ⟨readers, hr, List.mem_append_right _ (List.mem_cons_of_mem _ hmem)⟩

/-- Every task leaves the cells informed. -/
theorem perform (h : w.Informed (task :: w.agenda)) (hcoherent : w.Coherent due)
    (hsafe : (∀ s name v, task ≠ .tell (.importer s name) v) → task.Safe w.tree)
    (hattuned : w.Attuned (task :: w.agenda)) (hposted : w.Posted (task :: w.agenda))
    (hsolo : w.tree.Solo) : (w.perform task).Informed (w.perform task).agenda := by
  by_cases hnotice : ∃ s readers, task = .notifyReaders s readers
  · obtain ⟨s, readers, rfl⟩ := hnotice
    refine h.notifyReaders hsolo fun {p r c name cell i} hl hcell hi => ?_
    have hreader : cell.reader? name = some (i.scope, i.reader) := by
      rw [Cell.reader?, hi, Option.map_some]
    rcases hattuned.current hl hcell with hsome | ⟨hnone, -⟩
    · exact Prod.mk.inj (Option.some.inj (hreader.symm.trans hsome))
    · cases hreader.symm.trans hnone
  have hlent : ∀ {c : CellId} {cell : Cell} {name : String} {i : CellInput},
      w.cell? c = some cell → cell.inputs[name]? = some i →
        w.tree.Lent i.scope i.reader ∧ task ≠ .removeReader i.scope i.reader := by
    intro c cell name i hcell hi
    refine ⟨(hcoherent.cell hcell).input hi, ?_⟩
    rintro rfl
    exact hposted.removing (k := .reader) List.mem_cons_self hcell
      (Cell.has_reader_iff.mpr ⟨i, hi, rfl, rfl⟩)
  refine h.announce ?_ hcoherent.tied hlent (fun s readers heq => hnotice ⟨s, readers, heq⟩)
    (listens_perform hcoherent.tied fun _ => hcoherent.reader)
    fun {c cell' name i'} hcell' hi' => ?_
  · exact perform_announces hcoherent hsafe (fun _ _ => hattuned.silent)
      fun s readers heq => hnotice ⟨s, readers, heq⟩
  · by_cases hadd : ∃ s y, task = .cell c (.addInput s name y)
    · obtain ⟨s, y, rfl⟩ := hadd
      exact recalls_addInput hcoherent.tied hcell' hi'
    · exact recalls_perform (fun s y heq => hadd ⟨s, y, heq⟩) hcell' hi'

/-- Sweeping takes neither listeners nor values from the cells that stay. -/
theorem sweep (h : w.Informed w.agenda) (hready : w.Ready)
    (hposted : w.sweep.Posted w.sweep.agenda) : w.sweep.Informed w.sweep.agenda := by
  have hswept : w.Swept w.sweep := swept_sweep hready.tied
  have hhushes : w.tree.Hushes w.sweep.tree :=
    w.tree_sweep .refl .trans ScopeTree.hushes_ignoreReader ScopeTree.hushes_remove
  have hbefore : ∀ {c : CellId} {cell : Cell} {name : String} {i : CellInput} {now : SlotValue},
      w.sweep.cell? c = some cell → cell.inputs[name]? = some i →
      w.sweep.tree.readerValue? i.scope i.reader = some now →
        ∃ before, w.tree.readerValue? i.scope i.reader = some before ∧ before.same now := by
    intro c cell name i now hcell hi hnow
    have hgiven := ((hready.safe_cell (hswept.cell hcell)).input hi).given
    obtain ⟨before, hvalue, hsame⟩ := (hswept.recedes.passes 0).told hgiven hnow
    exact ⟨before, hvalue, SlotValue.same_symm (hsame.resolve_right (by simp))⟩
  have hreaders : w.sweep.readers = w.readers := by
    obtain ⟨cells, tree, heq, -⟩ := w.exists_sweep_eq
    rw [heq]
  have hlends : ∀ {p r}, w.sweep.Lends p r → w.Lends p r := by
    unfold Lends
    rw [hreaders]
    exact id
  rw [sweep_agenda]
  refine ⟨fun hinput hl => h.alone (hhushes _ _ _ hinput) (hhushes _ _ _ hl),
    fun hinput hlent => h.foreign (hhushes _ _ _ hinput) (hlends hlent), fun hcell hi => ?_, h.silent, fun hhead hcell hi hnow => ?_, fun hcell hi hnow => ?_⟩
  · have hscope := (hposted.entry hcell (Cell.has_reader_iff.mpr ⟨_, hi, rfl, rfl⟩)).1
    exact listens_sweep hready.tied hcell hscope (h.heard (hswept.cell hcell) hi)
  · obtain ⟨before, hvalue, hsame⟩ := hbefore hcell hi hnow
    exact SlotValue.same_trans (h.told hhead (hswept.cell hcell) hi hvalue) hsame
  · obtain ⟨before, hvalue, hsame⟩ := hbefore hcell hi hnow
    exact (h.remembered (hswept.cell hcell) hi hvalue).imp_left (SlotValue.same_trans · hsame)

theorem of_same (h : w.Informed agenda) (htree : w'.tree = w.tree) (hcells : w'.cells = w.cells)
    (hreaders : w'.readers = w.readers) : w'.Informed agenda := by
  have hcell : ∀ {c cell}, w'.cell? c = some cell → w.cell? c = some cell := by
    intro c cell hfound
    rwa [cell?, hcells] at hfound
  obtain ⟨alone, foreign, heard, silent, told, remembered⟩ := h
  rw [← htree] at alone foreign heard told remembered
  unfold Lends at foreign
  rw [← hreaders] at foreign
  exact ⟨alone, foreign, fun hfound => heard (hcell hfound), silent,
    fun hhead hfound => told hhead (hcell hfound), fun hfound => remembered (hcell hfound)⟩

end Informed

/-- In a chronicle the cells are always informed. -/
theorem Chronicle.informed {backend : Backend} {may : Workspace → Op → Prop} {deeds : List Deed}
    (h : Chronicle backend may deeds w) (hprompt : backend.Prompt) : w.Informed w.agenda := by
  induction h with
  | start => exact .start backend
  | call op _ hquiet _ _ ih => exact ih.call hquiet op
  | @step deeds w task rest hbefore hagenda ih =>
    obtain ⟨hsecluded, -, past, hrun⟩ := hbefore.exists_run hprompt
    have hposted := hbefore.posted hprompt
    have hafter := (hbefore.step hagenda).posted hprompt
    have hready := hsecluded.ready
    rw [hagenda] at ih hposted
    rw [step_of_agenda hagenda] at hafter ⊢
    obtain ⟨due, hcoherent⟩ := hready.coherent hagenda
    have hattuned := hsecluded.attuned
    rw [hagenda] at hattuned
    exact (Informed.perform (w := { w with agenda := rest }) (ih.of_same rfl rfl rfl) hcoherent
      (hready.safe hagenda) ⟨hattuned.silent, hattuned.numbered, hattuned.current⟩ (hposted.of_same rfl rfl rfl rfl)
      hrun.solo).sweep (hready.perform hagenda) hafter

end Workspace

end MathCanvas
