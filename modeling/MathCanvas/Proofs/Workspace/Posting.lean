import MathCanvas.Proofs.Workspace.Posts

/-!
# Cells stay enrolled

Every task and every operation of the client leaves the cells enrolled, or brings them nearer to it
(`Posted.perform`), and so does sweeping (`Posted.sweep`). So as long as nobody is enrolled by an
operation that is called while another one is in progress, whenever nothing is in progress each cell has its outputs at its position and its inputs there or just before
(`Posted.enrolled`).
-/

namespace MathCanvas

variable {agenda rest : List Task} {c c' : CellId} {cell cell' : Cell} {name : String} {s : ScopeId}
  {x : Nat} {y : Position} {k : Role} {task : Task}

namespace Workspace

variable {w w' : Workspace}

/-- What the first task is about was made for others than an importer, unless it tells one. -/
theorem Ready.safe {rest : List Task} (h : w.Ready) (hagenda : w.agenda = task :: rest)
    (htask : ∀ s name v, task ≠ .tell (.importer s name) v) : task.Safe w.tree := by
  cases h with
  | resting coherent => exact coherent.safe (hagenda ▸ List.mem_cons_self)
  | telling agenda =>
    rw [hagenda] at agenda
    exact absurd (List.cons.inj agenda).1 (htask _ _ _)

/-- So were the inputs and outputs of a cell. -/
theorem Ready.safe_cell (h : w.Ready) (hcell : w.cell? c = some cell) : cell.Safe w.tree := by
  cases h with
  | resting coherent => exact coherent.cell hcell
  | telling _ _ coherent => exact coherent.cell hcell

/-- So was every reader of the client. -/
theorem Ready.lent_reader (h : w.Ready) {handle : ReaderHandle} (hhandle : handle ∈ w.readers) :
    w.tree.Lent handle.scope handle.reader := by
  cases h with
  | resting coherent => exact coherent.reader hhandle
  | telling _ _ coherent => exact coherent.reader hhandle

/-- So was every definition of the client. -/
theorem Ready.lent_definition (h : w.Ready) {handle : DefinitionHandle}
    (hhandle : handle ∈ w.definitions) : w.tree.LentSlot handle.scope handle.slot := by
  cases h with
  | resting coherent => exact coherent.definition hhandle
  | telling _ _ coherent => exact coherent.definition hhandle

namespace Posted

/-! ### Cells that get an output or an input -/

/-- A cell gets what was made for it, and only others that add are behind. -/
theorem grant (h : w.Posted (task :: agenda)) (hrank : task.rank = .add ∨ task.rank = .keep)
    (hcell : w.cell? c = some cell) (new : Cell) (hscope : new.scope = cell.scope)
    (hposition : new.position = cell.position)
    (hhas : ∀ {n q u j}, new.Has n q u j ↔ cell.Has n q u j ∨ j = k ∧ n = name ∧ q = s ∧ u = x)
    (hs : cell.scope = some s) {tree : ScopeTree}
    (henrolled : ∀ {q u n z j}, w.tree.Enrolled q u n z j → tree.Enrolled q u n z j)
    (hshape : w.tree.SameShape tree) (hy : tree.Enrolled s x name y k)
    (haim : Aims (task :: agenda) c cell name y k)
    (hfree : k = .reader → (∀ {c' cell' n}, w.cell? c' = some cell' → ¬cell'.Has n s x .reader) ∧
      ∀ handle ∈ w.readers, ¬(handle.scope = s ∧ handle.reader = x))
    (hwrites : ∀ n, Writes agenda c new n ↔ Writes (task :: agenda) c cell n)
    (hother : ∀ {c' n}, task.output? = some (c', n) → c' = c) :
    (({ w with tree } : Workspace).putCell c new).Posted agenda := by
  have hpresent : ∀ {q}, w.tree.get? q ≠ none → tree.get? q ≠ none := fun {q} hq =>
    get?_ne_none_of_shape? (hshape.shape?_eq q) hq
  have hranks : ∀ {other : Task}, other ∈ agenda → other.rank = .idle ∨ other.rank = .add :=
    fun hmem => h.queued.rank_of_add hrank hmem
  have hstill : ∀ {c' q u} {j : Role}, ¬Awaits (task :: agenda) c' q u j := by
    rintro c' q u j (hmem | ⟨z, hmem⟩)
    · rcases List.mem_cons.mp hmem with rfl | hmem
      · simp [Task.rank] at hrank
      · have hranks := hranks hmem
        simp [Task.rank] at hranks
    · rcases List.mem_cons.mp hmem with rfl | hmem
      · simp at hrank
      · have hranks := hranks hmem
        simp at hranks
  have hothers : ∀ {c' cell' n}, c' ≠ c →
      (Writes agenda c' cell' n ↔ Writes (task :: agenda) c' cell' n) := by
    refine fun {c' cell' n} hne => or_congr_right ⟨?_, ?_⟩
    · rintro ⟨other, hmem, houtput⟩
      exact ⟨other, List.mem_cons_of_mem _ hmem, houtput⟩
    · rintro ⟨other, hmem, houtput⟩
      rcases List.mem_cons.mp hmem with rfl | hmem
      · exact absurd (hother houtput) hne
      · exact ⟨other, hmem, houtput⟩
  -- what a cell has now it had before, unless it is what is granted
  have hhad : ∀ {c' cell' n q u j},
      (({ w with tree } : Workspace).putCell c new).cell? c' = some cell' → cell'.Has n q u j →
      (∃ before, w.cell? c' = some before ∧ before.Has n q u j) ∨
        c' = c ∧ j = k ∧ n = name ∧ q = s ∧ u = x := by
    intro c' cell' n q u j hcell' hx
    rcases eq_or_of_cell? hcell' with ⟨rfl, rfl⟩ | ⟨-, hcell'⟩
    · exact (hhas.mp hx).imp (fun hx => ⟨cell, hcell, hx⟩) fun heq => ⟨rfl, heq⟩
    · exact .inl ⟨cell', hcell', hx⟩
  exact {
    queued := (queued_cons.mp h.queued).2
    held := fun hq => hpresent (h.held hq)
    housed := fun hcell' hq => by
      rcases eq_or_of_cell? hcell' with ⟨-, rfl⟩ | ⟨-, hcell'⟩
      · exact hpresent (h.housed hcell (hscope ▸ hq))
      · exact hpresent (h.housed hcell' hq)
    entering := fun hmem => by
      have hranks := hranks hmem
      simp [Task.rank] at hranks
    entry := fun {c' cell' n q u j} hcell' hx => by
      rcases eq_or_of_cell? hcell' with ⟨rfl, rfl⟩ | ⟨hne, hcell'⟩
      · rcases hhas.mp hx with hx | ⟨rfl, rfl, rfl, rfl⟩
        · obtain ⟨hq, z, hz, hplace, haim'⟩ := h.entry hcell hx
          refine ⟨hscope.trans hq, z, henrolled hz, hposition ▸ hplace, fun _ => ?_⟩
          exact (haim' hstill).congr hposition (hwrites n)
        · refine ⟨hscope.trans hs, y, hy, fun hk => .inl ?_, fun _ =>
            haim.congr hposition (hwrites n)⟩
          subst hk
          exact Eq.trans haim hposition.symm
      · obtain ⟨hq, z, hz, hplace, haim'⟩ := h.entry hcell' hx
        exact ⟨hq, z, henrolled hz, hplace, fun _ => (haim' hstill).congr rfl (hothers hne)⟩
    moving := fun hmem => by
      have hranks := hranks hmem
      simp at hranks
    removing := fun hmem => by
      have hranks := hranks hmem
      simp at hranks
    adding := fun {c' cell' n q z j} hmem hcell' => by
      rcases eq_or_of_cell? hcell' with ⟨rfl, rfl⟩ | ⟨hne, hcell'⟩
      · obtain ⟨hq, haim'⟩ := h.adding (List.mem_cons_of_mem _ hmem) hcell
        exact ⟨hscope.trans hq, haim'.congr hposition (hwrites n)⟩
      · obtain ⟨hq, haim'⟩ := h.adding (List.mem_cons_of_mem _ hmem) hcell'
        exact ⟨hq, haim'.congr rfl (hothers hne)⟩
    keeping := fun hmem => by
      have hranks := hranks hmem
      simp [Task.rank] at hranks
    apart := fun {c₁ c₂ cell₁ cell₂ n₁ n₂ q u} hcell₁ hcell₂ hx₁ hx₂ => by
      rcases hhad hcell₁ hx₁ with ⟨before₁, hb₁, hx₁⟩ | ⟨rfl, hk, -, rfl, rfl⟩ <;>
        rcases hhad hcell₂ hx₂ with ⟨before₂, hb₂, hx₂⟩ | ⟨rfl, hk', -, hq, hu⟩
      · exact h.apart hb₁ hb₂ hx₁ hx₂
      · subst hq hu
        exact absurd hx₁ ((hfree hk'.symm).1 hb₁)
      · exact absurd hx₂ ((hfree hk.symm).1 hb₂)
      · rfl
    foreign := fun {handle c' cell' n} hhandle hcell' hx => by
      rcases hhad hcell' hx with ⟨before, hbefore, hx⟩ | ⟨-, hk, -, hq, hu⟩
      · exact h.foreign hhandle hbefore hx
      · exact (hfree hk.symm).2 handle hhandle ⟨hq, hu⟩ }

/-- A definition is added for an output that a cell does not have yet, and is going to be handed
over. -/
theorem addOutput (h : w.Posted (.cell c (.addOutput s name y) :: w.agenda))
    (htied : w.tree.WellTied) (hcell : w.cell? c = some cell) :
    (w.performCell c cell (.addOutput s name y)).Posted
      (w.performCell c cell (.addOutput s name y)).agenda := by
  obtain ⟨hscope, haim⟩ := h.adding (k := .definition) List.mem_cons_self hcell
  unfold performCell
  simp only
  split
  · rename_i hhas
    rw [Std.TreeMap.contains_eq_isSome_getElem?, Option.isSome_iff_ne_none] at hhas
    refine h.drop (fun {c' cell' n} hcell' houtput => .inl ?_) fun _ _ => ⟨(by rintro ⟨⟩), fun _ => ?_⟩
    · obtain ⟨rfl, rfl⟩ := Prod.mk.inj (Option.some.inj houtput)
      rwa [Option.some.inj (hcell'.symm.trans hcell)]
    · rename_i role _ _ _
      cases role <;> rintro ⟨⟩
  rename_i hmissing
  rw [Std.TreeMap.contains_eq_isSome_getElem?, Bool.not_eq_true, Option.isSome_eq_false_iff,
    Option.isNone_iff_eq_none] at hmissing
  cases hadd : w.tree.addDefinition s name y with
  | none => exact absurd (Option.map_eq_none_iff.mp hadd) (h.housed hcell hscope)
  | some made =>
    obtain ⟨slot, readers, tree⟩ := made
    have hadmits := ScopeTree.admits_addDefinition htied hadd
    have hshape := ScopeTree.sameShape_addDefinition hadd
    have hpresent : ∀ {q}, w.tree.get? q ≠ none → tree.get? q ≠ none := fun {q} hq =>
      get?_ne_none_of_shape? (hshape.shape?_eq q) hq
    have hbehind : ∀ {other : Task}, other ∈ w.agenda → other.rank = .idle ∨ other.rank = .add :=
      fun hmem => h.queued.rank_of_add (.inl rfl) hmem
    have hagenda : ∀ {other : Task}, other ∈ .notifyReaders s readers ::
        .cell c (.keepOutput s name slot) :: w.agenda → other.rank ≠ .idle →
        other = .cell c (.keepOutput s name slot) ∨ other ∈ w.agenda := by
      intro other hmem hidle
      rcases List.mem_cons.mp hmem with rfl | hmem
      · exact absurd rfl hidle
      · exact List.mem_cons.mp hmem
    have hrest : ∀ {other : Task}, other ∈ w.agenda →
        other ∈ .notifyReaders s readers :: .cell c (.keepOutput s name slot) :: w.agenda :=
      fun hmem => List.mem_cons_of_mem _ (List.mem_cons_of_mem _ hmem)
    refine h.proceed (queued_cons.mpr ⟨by simp [Task.rank], queued_cons.mpr ⟨fun later hl => ?_, ?_⟩⟩)
      (fun other hmem hidle => ?_) (fun hcell' => ⟨_, hcell', .refl _⟩) (fun _ _ => ?_)
      (fun {_ _ _ _ _ _ role} _ _ _ hz hplace haim' => ⟨_, hadmits.enrolled.mpr (.inl hz), hplace, fun hstill =>
        haim' fun hwait => hstill ?_⟩) (fun hmem hcell' => ?_) (fun hq => hpresent (h.held hq))
      (fun hcell' hq => hpresent (h.housed hcell' hq)) (fun hmem => ?_) fun _ => id
    · rcases hbehind hl with hl | hl <;> rw [hl] <;> rfl
    · exact (queued_cons.mp h.queued).2
    · rcases hagenda hmem hidle with rfl | hmem
      · exact .inr rfl
      · exact .inl (List.mem_cons_of_mem _ hmem)
    · refine or_congr_right ⟨?_, ?_⟩
      · rintro ⟨other, hmem, houtput⟩
        rcases hagenda hmem (Task.rank_ne_idle_of_output? houtput) with rfl | hmem
        · exact ⟨_, List.mem_cons_self, houtput⟩
        · exact ⟨other, List.mem_cons_of_mem _ hmem, houtput⟩
      · rintro ⟨other, hmem, houtput⟩
        rcases List.mem_cons.mp hmem with rfl | hmem
        · exact ⟨_, List.mem_cons_of_mem _ List.mem_cons_self, houtput⟩
        · exact ⟨other, hrest hmem, houtput⟩
    · refine hwait.imp (fun hmem => ?_) (Exists.imp fun z hmem => ?_)
      · exact hrest ((List.mem_cons.mp hmem).resolve_left (by rintro ⟨⟩))
      · exact hrest ((List.mem_cons.mp hmem).resolve_left (by cases role <;> rintro ⟨⟩))
    · rcases hagenda hmem (by rintro ⟨⟩) with heq | hmem
      · cases heq
        cases hcell'.symm.trans hcell
        refine ⟨hscope, hmissing, hadmits.enrolled.mpr (.inr ⟨⟨rfl, rfl, rfl⟩, rfl, haim.symm⟩)⟩
      · have hrank := hbehind hmem
        simp [Task.rank] at hrank
    · have hrank := hbehind ((hagenda hmem (by rintro ⟨⟩)).resolve_left fun heq => by cases heq)
      simp [Task.rank] at hrank

/-- A cell gets the definition that was added for it. -/
theorem keepOutput (h : w.Posted (.cell c (.keepOutput s name x) :: agenda))
    (hcell : w.cell? c = some cell) :
    (w.performCell c cell (.keepOutput s name x)).Posted agenda := by
  obtain ⟨hscope, hnone, hx⟩ := h.keeping List.mem_cons_self hcell
  refine h.grant (k := .definition) (.inr rfl) hcell
    { cell with outputs := cell.outputs.insert name ⟨s, x⟩ } rfl rfl (fun {n q u j} => ?_) hscope id
    (.refl _) hx rfl (by rintro ⟨⟩) (fun n => ?_) fun houtput => ?_
  · cases j with
    | definition =>
      simp only [Cell.Has, lookup_insert, true_and]
      split
      · rename_i hn
        subst hn
        simp [hnone, eq_comm]
      · rename_i hn
        simp [Ne.symm hn]
    | reader => simp [Cell.Has, Cell.reader?]
  · simp only [Writes, lookup_insert, List.mem_cons, exists_eq_or_imp, Task.output?]
    split
    · rename_i hn
      subst hn
      simp
    · rename_i hn
      simp [hn]
  · exact (Prod.mk.inj (Option.some.inj houtput)).1.symm

/-- A cell gets a reader as an input that it does not have yet. -/
theorem addInput (h : w.Posted (.cell c (.addInput s name y) :: w.agenda))
    (htied : w.tree.WellTied) (hlent : ∀ handle ∈ w.readers, w.tree.Lent handle.scope handle.reader)
    (hcell : w.cell? c = some cell) :
    (w.performCell c cell (.addInput s name y)).Posted
      (w.performCell c cell (.addInput s name y)).agenda := by
  obtain ⟨hscope, haim⟩ := h.adding (k := .reader) List.mem_cons_self hcell
  have hdrop : w.Posted w.agenda := h.drop (fun _ houtput => by cases houtput)
    fun {_ _ _ _ _ role} _ _ => ⟨(by rintro ⟨⟩), fun _ => by cases role <;> rintro ⟨⟩⟩
  unfold performCell
  simp only
  split
  · exact hdrop
  rename_i hmissing
  rw [Std.TreeMap.contains_eq_isSome_getElem?, Bool.not_eq_true, Option.isSome_eq_false_iff,
    Option.isNone_iff_eq_none] at hmissing
  cases hadd : w.tree.addReader s name y with
  | none => exact absurd (Option.map_eq_none_iff.mp hadd) (h.housed hcell hscope)
  | some made =>
    obtain ⟨reader, readers, tree⟩ := made
    have hadmits := ScopeTree.admits_addReader htied hadd
    have hlisten : tree.SameRolls (tree.listenToReader s reader (.input c name)) :=
      ScopeTree.sameRolls_listenToReader s reader _
    have hshape : w.tree.SameShape (tree.listenToReader s reader (.input c name)) :=
      (ScopeTree.sameShape_addReader hadd).trans (ScopeTree.sameShape_listenToReader reader _)
    simp only
    generalize tree.listenToReader s reader (.input c name) = made at hlisten hshape
    refine of_same (h.grant (k := .reader) (x := reader) (.inl rfl) hcell
      { cell with inputs := cell.inputs.insert name ⟨s, reader, made.readerValue s reader⟩ }
      rfl rfl (fun {n q u j} => ?_) hscope
      (fun hz => hlisten.enrolled.mpr (hadmits.enrolled.mpr (.inl hz))) hshape
      (hlisten.enrolled.mpr (hadmits.enrolled.mpr (.inr ⟨⟨rfl, rfl, rfl⟩, rfl, rfl⟩))) haim
      (fun _ => ⟨fun hcell' hx => ?_, fun handle hhandle heq => ?_⟩) (fun n => ?_)
      fun houtput => by cases houtput) rfl rfl rfl rfl
    · cases j with
      | definition => simp [Cell.Has]
      | reader =>
        simp only [Cell.Has, cell.reader?_insert, true_and]
        split
        · rename_i hn
          subst hn
          simp [Cell.reader?, hmissing, eq_comm]
        · rename_i hn
          simp [Ne.symm hn]
    · obtain ⟨-, z, hz, -⟩ := h.entry hcell' hx
      exact hadmits.fresh _ _ hz
    · refine ScopeTree.not_given_addReader htied hadd ?_
      obtain ⟨hs, hr⟩ := heq
      exact hs ▸ hr ▸ (hlent handle hhandle).given
    · simp [Writes, Task.output?]

/-- The client gets the definition that was added for it. -/
theorem keepDefinition (h : w.Posted (.keepDefinition s x name :: agenda)) :
    w.Posted agenda :=
  h.drop (fun _ houtput => by cases houtput)
    fun {_ _ _ _ _ role} _ _ => ⟨(by rintro ⟨⟩), fun _ => by cases role <;> rintro ⟨⟩⟩

/-! ### Operations of the client -/

/-- What the client has does not belong to a cell. -/
theorem not_has_definition (h : w.Apportioned agenda) {handle : DefinitionHandle}
    (hhandle : handle ∈ w.definitions) (hcell : w.cell? c = some cell) :
    ¬cell.Has name handle.scope handle.slot .definition := fun hx => by
  have howns : w.Owns agenda (.output c name) handle.scope handle.slot := ⟨cell, hcell, hx⟩
  have howns' : w.Owns agenda .client handle.scope handle.slot := ⟨handle, hhandle, rfl, rfl⟩
  cases h.unique howns howns'

/-- Something that belongs to no cell is going to be moved or removed. -/
theorem push_shift (h : w.Posted []) (hquiet : w.agenda = [])
    (hfree : ∀ {c cell name}, w.cell? c = some cell → ¬cell.Has name s x k)
    (htask : (∃ z, task = k.moving s x z) ∨ task = k.removing s x) :
    (w.push [task]).Posted (w.push [task]).agenda := by
  have hrank : task.rank = .shift := by
    rcases htask with ⟨z, rfl⟩ | rfl
    · exact Role.rank_moving ..
    · exact Role.rank_removing ..
  have hwrites : ∀ {c' cell' n}, Writes [task] c' cell' n ↔ Writes [] c' cell' n := by
    refine fun {c' cell' n} => or_congr_right ⟨?_, by simp⟩
    rintro ⟨other, hmem, houtput⟩
    cases List.mem_singleton.mp hmem
    rcases Task.rank_of_output? houtput with hother | hother <;> rw [hrank] at hother <;> cases hother
  have hnot : ∀ {other : Task}, other ∈ [task] → other.rank ≠ .shift → False := fun hmem hne =>
    hne (List.mem_singleton.mp hmem ▸ hrank)
  have hagenda : (w.push [task]).agenda = [task] := by rw [push, hquiet, List.append_nil]
  rw [hagenda]
  exact {
    queued := by simp
    held := h.held
    housed := h.housed
    entering := fun hmem => (hnot hmem (by rintro ⟨⟩)).elim
    entry := fun hcell hx => by
      obtain ⟨hs, y, hy, hplace, haim⟩ := h.entry hcell hx
      exact ⟨hs, y, hy, hplace, fun _ => (haim (by simp [Awaits])).congr rfl hwrites⟩
    moving := fun hmem hcell hx => by
      rcases htask with ⟨z, rfl⟩ | rfl
      · obtain ⟨rfl, rfl, rfl, -⟩ := Role.moving_inj.mp (List.mem_singleton.mp hmem)
        exact absurd hx (hfree hcell)
      · exact absurd (List.mem_singleton.mp hmem) Role.moving_ne_removing
    removing := fun hmem hcell hx => by
      rcases htask with ⟨z, rfl⟩ | rfl
      · exact Role.moving_ne_removing (List.mem_singleton.mp hmem).symm
      · obtain ⟨rfl, rfl, rfl⟩ := Role.removing_inj.mp (List.mem_singleton.mp hmem)
        exact hfree hcell hx
    adding := fun hmem => (hnot hmem (by simp)).elim
    keeping := fun hmem => (hnot hmem (by rintro ⟨⟩)).elim
    apart := h.apart
    foreign := h.foreign }

/-- The client gets a reader that belongs to no cell. -/
theorem push_reader (h : w.Posted agenda) {handle : ReaderHandle}
    (hfree : ∀ {c cell name}, w.cell? c = some cell →
      ¬cell.Has name handle.scope handle.reader .reader) :
    ({ w with readers := w.readers.push handle } : Workspace).Posted agenda :=
  { h with
    foreign := fun hmem hcell => by
      rcases Array.mem_push.mp hmem with hmem | rfl
      · exact h.foreign hmem hcell
      · exact hfree hcell }

theorem onHeldCell {f : Cell → Workspace} (h : w.Posted w.agenda)
    (hf : ∀ cell, w.cell? c = some cell → (f cell).Posted (f cell).agenda) :
    (w.onHeldCell c f).Posted (w.onHeldCell c f).agenda := by
  unfold Workspace.onHeldCell onCell
  split
  · split
    · rename_i cell hcell
      exact hf cell hcell
    · exact h
  · exact h

/-- The expression or the position of a cell is another one, and the cell is going to be brought in
step. -/
theorem batch (h : w.Posted []) (hquiet : w.agenda = []) (hcell : w.cell? c = some cell) (new : Cell)
    (hscope : new.scope = cell.scope) (hinputs : new.inputs = cell.inputs)
    (houtputs : new.outputs = cell.outputs)
    (hplace : new.position = cell.position ∨ cell.position.same new.position = false)
    (always : Bool) :
    ((w.push [.releaseCell c]).batch c new always).Posted
      ((w.push [.releaseCell c]).batch c new always).agenda := by
  have hagenda : ((w.push [.releaseCell c]).batch c new always).agenda =
      [.cell c .synchronize, .cell c (.endBatch new.suspended always), .releaseCell c] := by
    simp [Workspace.batch, push, putCell, hquiet]
  rw [hagenda]
  refine of_same (w := w.putCell c { new with suspended := true })
    (h.turn hcell { new with suspended := true } hscope hinputs houtputs hplace (by simp [Task.rank]) List.mem_cons_self
      fun other hmem hidle => ?_) rfl rfl rfl rfl
  rcases List.mem_cons.mp hmem with rfl | hmem
  · rfl
  · simp only [List.mem_cons, List.not_mem_nil, or_false] at hmem
    rcases hmem with rfl | rfl <;> exact absurd rfl hidle

theorem operate {op : Op} (h : w.Posted (.operate op :: w.agenda)) (hquiet : w.agenda = [])
    (htied : w.tree.WellTied) (happ : w.Apportioned agenda)
    (henlists : op.enlists = true) : (w.operate op).2.Posted (w.operate op).2.agenda := by
  have hbefore : w.Posted [] := hquiet ▸ h.drop (fun _ houtput => by cases houtput)
    fun {_ _ _ _ _ role} _ _ => ⟨(by rintro ⟨⟩), fun _ => by cases role <;> rintro ⟨⟩⟩
  have hsame : w.Posted w.agenda := hquiet.symm ▸ hbefore
  have hpresent : ∀ {made : ScopeTree}, w.tree.SameShape made → ∀ {q}, w.tree.get? q ≠ none →
      made.get? q ≠ none := fun {made} hshape {q} hq =>
    get?_ne_none_of_shape? (hshape.shape?_eq q) hq
  cases op with
  | addDefinition s name y =>
    unfold Workspace.operate
    simp only
    split
    · split
      · rename_i slot readers tree hadd
        have hadmits := ScopeTree.admits_addDefinition htied hadd
        have hshape : ∀ {q}, w.tree.get? q ≠ none → tree.get? q ≠ none :=
          fun hq => hpresent (ScopeTree.sameShape_addDefinition hadd) hq
        have hagenda : (({ w with tree } : Workspace).push [.notifyReaders s readers,
            .keepDefinition s slot name, .releaseScope s]).agenda =
            [.notifyReaders s readers, .keepDefinition s slot name, .releaseScope s] := by
          simp [push, hquiet]
        rw [hagenda]
        refine hbefore.proceed (by simp [Task.rank]) (fun other hmem hidle => .inr ?_)
          (fun hcell => ⟨_, hcell, .refl _⟩) (fun _ _ => by simp [Writes, Task.output?])
          (fun _ _ _ hz hplace haim => ⟨_, hadmits.enrolled.mpr (.inl hz), hplace, fun _ =>
            haim (by simp [Awaits])⟩) (fun hmem => by simp at hmem)
          (fun hq => hshape (hbefore.held hq)) (fun hcell hq => hshape (hbefore.housed hcell hq))
          (fun hmem => by simp at hmem) fun _ => id
        simp only [List.mem_cons, List.not_mem_nil, or_false] at hmem
        rcases hmem with rfl | rfl | rfl
        · exact absurd rfl hidle
        · rfl
        · exact absurd rfl hidle
      · exact hsame
    · exact hsame
  | addReader s name y =>
    unfold Workspace.operate
    simp only
    split
    · split
      · rename_i reader readers tree hadd
        have hadmits := ScopeTree.admits_addReader htied hadd
        have hshape : ∀ {q}, w.tree.get? q ≠ none → tree.get? q ≠ none :=
          fun hq => hpresent (ScopeTree.sameShape_addReader hadd) hq
        have htree : ({ w with tree } : Workspace).Posted w.agenda :=
          hsame.carry hsame.queued (fun _ hmem _ => hmem) (fun hcell => ⟨_, hcell, .refl _⟩)
            (fun _ _ => id) (fun _ _ => id) (fun _ hx => hadmits.enrolled.mpr (.inl hx))
            (fun hq => hshape (hsame.held hq)) (fun hcell hq => hshape (hsame.housed hcell hq))
            (fun hmem => hshape ((hsame.entering hmem).1 _ rfl)) fun _ => id
        refine htree.push_reader fun hcell hx => ?_
        obtain ⟨-, z, hz, -⟩ := hsame.entry hcell hx
        exact hadmits.fresh _ _ hz
      · exact hsame
    · exact hsame
  | move handle y =>
    cases handle with
    | definition n =>
      unfold Workspace.operate
      simp only
      split
      · rename_i handle hn
        exact hbefore.push_shift (k := .definition) hquiet
          (not_has_definition happ (Array.mem_of_getElem? hn)) (.inl ⟨y, rfl⟩)
      · exact hsame
    | reader n =>
      unfold Workspace.operate
      simp only
      split
      · rename_i handle hn
        exact hbefore.push_shift (k := .reader) hquiet
          (hbefore.foreign (Array.mem_of_getElem? hn)) (.inl ⟨y, rfl⟩)
      · exact hsame
  | remove handle =>
    cases handle with
    | definition n =>
      unfold Workspace.operate
      simp only
      split
      · rename_i handle hn
        exact hbefore.push_shift (k := .definition) hquiet
          (not_has_definition happ (Array.mem_of_getElem? hn)) (.inr rfl)
      · exact hsame
    | reader n =>
      unfold Workspace.operate
      simp only
      split
      · rename_i handle hn
        exact hbefore.push_shift (k := .reader) hquiet
          (hbefore.foreign (Array.mem_of_getElem? hn)) (.inr rfl)
      · exact hsame
  | newCell position expression scope automatic =>
    unfold Workspace.operate
    simp only
    have hempty : ∀ {n q u k},
        ¬({ expression, position, automatic } : Cell).Has n q u k := fun {n q u k} hx => by
      cases k <;> simp [Cell.Has, Cell.reader?] at hx
    have hmade : (w.putCell w.nextCell { expression, position, automatic }).Posted [] :=
      hbefore.emptied (c := w.nextCell) (by simp) hempty (fun _ => by rintro ⟨⟩) (by simp) (by simp)
    refine setScope (of_same hmade rfl rfl rfl rfl) hquiet (cell?_putCell ..)
      (fun _ _ hx => absurd hx hempty) fun s hs => hbefore.held ?_
    have hheld := (Option.filter_eq_some_iff.mp hs).2
    simpa using hheld
  | setScope c scope => 
    refine onHeldCell hsame fun cell hcell => ?_
    split
    · rename_i hall
      refine hbefore.setScope hquiet hcell
        (fun hcell' hx hx' => hbefore.owner_eq happ hcell' hcell hx hx') fun s hs => hbefore.held ?_
      simpa [hs] using hall
    · exact hsame
  | setExpression c e =>
    exact onHeldCell hsame fun cell hcell => hbefore.batch hquiet hcell { cell with expression := e } rfl rfl rfl
      (.inl rfl) true
  | setPosition c y =>
    refine onHeldCell hsame fun cell hcell => ?_
    split
    · exact hsame
    · rename_i hplace
      exact hbefore.batch hquiet hcell { cell with position := y } rfl rfl rfl
        (.inr (Bool.eq_false_iff.mpr hplace)) false
  | _ => cases henlists

/-! ### Tasks -/

/-- One task leaves the cells enrolled, or brings them nearer to it. -/
theorem perform (h : w.Posted (task :: w.agenda)) (htied : w.tree.WellTied)
    (happ : w.Apportioned (task :: w.agenda)) (hsafe : task.rank ≠ .idle → task.Safe w.tree)
    (hlent : ∀ handle ∈ w.readers, w.tree.Lent handle.scope handle.reader)
    (hop : ∀ op, task = .operate op → op.enlists = false ∨ w.agenda = []) :
    (w.perform task).Posted (w.perform task).agenda := by
  have hconsistent : w.tree.Consistent := htied.allConsistent
  by_cases hcalm : ∀ op, task = .operate op → op.enlists = false
  swap
  · obtain ⟨op, rfl, henlists⟩ : ∃ op, task = .operate op ∧ op.enlists = true := by
      simpa using hcalm
    have hquiet := (hop op rfl).resolve_left (by simp [henlists])
    exact operate h hquiet htied happ henlists
  by_cases hidle : task.rank = .idle
  · exact h.idle hidle (perform_rests htied hidle hcalm)
      (samePost_perform hidle hcalm) (get?_perform task)
      (get?_of_mem_heldScopes_perform (fun _ => h.held) task)
  have hsafe := hsafe hidle
  cases task with
  | moveDefinition s x y =>
    exact h.moved (j := .definition) (ScopeTree.shifts_moveDefinition htied s x y)
      (ScopeTree.sameShape_update ..) _
  | moveReader s r y =>
    exact h.moved (j := .reader) (ScopeTree.shifts_moveReader htied hsafe y)
      (ScopeTree.sameShape_update ..) _
  | removeDefinition s x =>
    exact h.removed (j := .definition) (ScopeTree.quits_removeDefinition htied s x)
      (ScopeTree.sameShape_removeDefinition ..) _
  | removeReader s r =>
    exact h.removed (j := .reader) (ScopeTree.quits_removeReader htied hsafe)
      (ScopeTree.sameShape_removeReader ..) _
  | keepDefinition s x name => exact of_same h.keepDefinition rfl rfl rfl rfl
  | cell c driven =>
    cases hcell : w.cell? c with
    | none =>
      rw [perform_cell_of_none hcell]
      refine h.drop (fun hcell' houtput => ?_) fun {c' cell' n q u role} hcell' hx =>
        ⟨fun heq => ?_, fun z => by cases role <;> rintro ⟨⟩⟩
      · rw [Task.eq_of_output? houtput, hcell] at hcell'
        cases hcell'
      · cases heq
        cases hcell.symm.trans hcell'
    | some cell =>
      rw [perform_cell hcell]
      cases driven with
      | enter scope => exact h.enter hcell true
      | synchronize =>
        cases hscope : cell.scope with
        | some s =>
          unfold performCell
          simp only [hscope]
          exact h.synchronize happ hconsistent hcell hscope
        | none =>
          unfold performCell
          simp only [hscope]
          refine h.drop (fun _ houtput => by cases houtput) fun {c' cell' n q u role} hcell' hx =>
            ⟨fun heq => ?_, fun z => by cases role <;> rintro ⟨⟩⟩
          -- a cell without a scope has nothing
          cases heq
          cases hcell.symm.trans hcell'
          cases hscope.symm.trans (h.entry hcell hx).1
      | addOutput s name y => exact h.addOutput htied hcell
      | keepOutput s name x => exact h.keepOutput hcell
      | addInput s name y => exact h.addInput htied hlent hcell
      | _ => exact absurd rfl hidle
  | _ => exact absurd rfl hidle

/-! ### Runs -/

/-- Sweeping takes away nobody who is in a scope that stays. -/
theorem sweep (h : w.Posted w.agenda) (htied : w.tree.WellTied) : w.sweep.Posted w.sweep.agenda := by
  have hpresent : ∀ {s}, s ∈ w.sweep.referredScopes → w.tree.get? s ≠ none →
      w.sweep.tree.get? s ≠ none := fun hs =>
    get?_ne_none_of_shape? (shape?_sweep_of_referred hs)
  have hcells : ∀ {c cell}, w.sweep.cell? c = some cell → w.cell? c = some cell := by
    obtain ⟨cells, tree, heq, hcells⟩ := w.exists_sweep_eq
    rw [heq]
    exact hcells
  have hreaders : w.sweep.readers = w.readers := by
    obtain ⟨cells, tree, heq, -⟩ := w.exists_sweep_eq
    rw [heq]
  rw [sweep_agenda]
  refine h.carry h.queued (fun _ hmem _ => hmem) (fun hcell => ⟨_, hcells hcell, .refl _⟩)
    (fun _ _ => id) (fun _ _ => id) (fun hs hx => (enrolled_sweep htied).mpr ⟨hx, hs⟩) (fun {s} hs => ?_) (fun {c cell s} hcell hscope => ?_)
    (fun {c s} hmem => ?_) (by simp [hreaders])
  · refine hpresent ?_ (h.held (w.heldScopes_sweep ▸ hs))
    exact List.mem_append_left _ (List.mem_append_left _ hs)
  · refine hpresent ?_ (h.housed (hcells hcell) hscope)
    refine List.mem_append_left _ (List.mem_append_right _ (List.mem_filterMap.mpr ⟨cell, ?_, hscope⟩))
    exact (mem_values_iff_lookup _ _).mpr ⟨c, hcell⟩
  · refine hpresent ?_ ((h.entering hmem).1 s rfl)
    refine List.mem_append_right _ (List.mem_filterMap.mpr ⟨.cell c (.enter (some s)), ?_, rfl⟩)
    rw [sweep_agenda]
    exact hmem

theorem start (backend : Backend) : ({ backend } : Workspace).Posted [] where
  queued := queued_nil
  held hs := by
    rw [List.mem_singleton.mp hs]
    simp [ScopeTree.get?, ScopeTree.root]
  housed hcell := by simp [cell?] at hcell
  entering hmem := by simp at hmem
  entry hcell := by simp [cell?] at hcell
  moving hmem := by simp at hmem
  removing hmem := by simp at hmem
  adding hmem := by simp at hmem
  keeping hmem := by simp at hmem
  apart hcell := by simp [cell?] at hcell
  foreign hmem := by simp at hmem

/-- An operation that is called has not begun yet. -/
theorem call (h : w.Posted w.agenda) (hquiet : w.agenda = []) (op : Op) :
    (w.call op).Posted (w.call op).agenda := by
  have hbefore : w.Posted [] := hquiet ▸ h
  refine of_same (w := w) (hbefore.carry (queued_cons.mpr ⟨by simp, queued_nil⟩)
    (fun task hmem hidle => ?_) (fun hcell => ⟨_, hcell, .refl _⟩) (fun _ _ hx => ?_)
    (fun _ _ hwait => ?_) (fun _ => id) h.held h.housed (fun hmem => ?_) fun _ => id) rfl rfl rfl rfl
  · exact absurd (List.mem_singleton.mp hmem ▸ rfl) hidle
  · exact hx.imp_right fun hmade => absurd hmade (by simp)
  · simp [Awaits] at hwait
  · exact absurd (List.mem_singleton.mp hmem) (by rintro ⟨⟩)

/-- The next step, unless it enrolls somebody while others are still to be enrolled. -/
theorem step {rest : List Task} (h : w.Posted w.agenda) (hagenda : w.agenda = task :: rest)
    (hready : w.Ready) (happ : w.Apportioned w.agenda)
    (hop : ∀ op, task = .operate op → op.enlists = false ∨ rest = []) :
    w.step.Posted w.step.agenda := by
  rw [step_of_agenda hagenda]
  rw [hagenda] at h happ
  have hposted := perform (w := { w with agenda := rest }) (of_same h rfl rfl rfl rfl) hready.tied
    ⟨happ.unique, happ.once, happ.unassigned, happ.written, happ.first⟩
    (fun hidle => hready.safe hagenda (by rintro s name v rfl; exact hidle rfl))
    (fun handle hhandle => hready.lent_reader hhandle) hop
  exact hposted.sweep (hready.perform hagenda).tied

/-- What a cell has is in its scope, a definition at the position of the cell, and a reader there too,
or just before it if the cell has a definition of the name, as soon as no task is going to move it or
to make a definition of the name for the cell. -/
theorem enrolled_of_still (h : w.Posted agenda) (hcell : w.cell? c = some cell)
    (hx : cell.Has name s x k) (hstill : ¬Awaits agenda c s x k)
    (houtputs : ∀ task ∈ agenda, task.output? ≠ some (c, name)) :
    cell.scope = some s ∧ w.tree.Enrolled s x name (cell.stand name k) k := by
  obtain ⟨hscope, y, hy, -, haim⟩ := h.entry hcell hx
  have haim := haim hstill
  suffices y = cell.stand name k from ⟨hscope, this ▸ hy⟩
  cases k with
  | definition => exact haim
  | reader =>
    have hpending : ¬∃ task ∈ agenda, task.output? = some (c, name) := by
      rintro ⟨task, htask, houtput⟩
      exact houtputs task htask houtput
    have hwrites : Writes agenda c cell name ↔ name ∈ cell.outputs.keys := by
      rw [mem_keys_iff_lookup, Writes, or_iff_left hpending, Option.ne_none_iff_exists']
    rw [Cell.stand, Cell.readPosition]
    split
    · rename_i hname
      exact haim.1 (hwrites.mpr (List.contains_iff_mem.mp hname))
    · rename_i hname
      exact haim.2 fun hw => hname (List.contains_iff_mem.mpr (hwrites.mp hw))

/-- When nothing is in progress, what a cell has is where it is to be. -/
theorem enrolled (h : w.Posted w.agenda) (hquiet : w.agenda = []) (hcell : w.cell? c = some cell)
    (hx : cell.Has name s x k) :
    cell.scope = some s ∧ w.tree.Enrolled s x name (cell.stand name k) k :=
  h.enrolled_of_still hcell hx (by simp [Awaits, hquiet]) (by simp [hquiet])

end Posted

end Workspace

end MathCanvas
