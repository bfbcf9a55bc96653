import MathCanvas.Proofs.Workspace.Deeds

/-!
# The fate of a command

`Deed.fate` follows a command through a list of deeds. It is a partial function: a list in which a
command is sent twice, answered twice, or cancelled at the wrong moment has no fate for it. What it
means that there is one is said by `fate_waiting`, `fate_due` and `cancelled_of_disturbed`, and that
every chronicle has a fate for every command is shown elsewhere (`Workspace.Chronicle.exists_fate`).

A command that is withdrawn cannot be answered any more, but its cell goes on to wait for it.
-/

namespace MathCanvas

/-- How far a command has come. Where a cell is still concerned with it, a flag says whether it can be
answered. -/
inductive Fate where
  | unsent
  /-- The cell waits for the answer at a stage of its run. -/
  | waiting (c : CellId) (leg : Leg) (pending : Bool)
  /-- The run of the cell is out of date, and is going to be given up. -/
  | doomed (c : CellId) (pending : Bool)
  /-- The cell gave up its run. The command is cancelled next. -/
  | due (c : CellId) (pending : Bool)
  /-- It has an outcome, or it was answered when the cell was gone. -/
  | past (ended : Bool)
  deriving DecidableEq, Inhabited

namespace Fate

/-- The cell that is still concerned with a command. -/
def cell? : Fate → Option CellId
  | waiting c _ _ | doomed c _ => some c
  | _ => none

/-- Where a cell waits, it is going to be invalidated if it is disturbed. -/
def disturbedBy (deeds : List Deed) : Fate → Fate
  | waiting c leg pending =>
    if .disturbed c ∈ deeds then doomed c pending else waiting c leg pending
  | f => f

end Fate

namespace Deed

/-- Whether a deed is that an answer to a command arrives. -/
def answers (id : CommandId) : Deed → Bool
  | applied id' _ | failed id' | ignored id' => id' == id
  | _ => false

/-- Whether a deed is an outcome of a command. -/
def ends (id : CommandId) : Deed → Bool
  | applied id' _ | failed id' | cancelled id' => id' == id
  | _ => false

/-- What becomes of a command by a deed that is about it. -/
def meets : Fate → Deed → Option Fate
  | .unsent, sent c _ leg => some (.waiting c leg true)
  | .waiting _ leg true, applied _ leg' => if leg' = leg then some (.past true) else none
  | .waiting _ _ true, failed _ => some (.past true)
  | .waiting _ _ true, ignored _ => some (.past false)
  | .waiting c leg true, withdrawn _ => some (.waiting c leg false)
  | .due _ _, cancelled _ => some (.past true)
  | .past ended, ignored _ | .past ended, withdrawn _ => some (.past ended)
  | _, _ => none

/-- What becomes of a command by a deed that is not about it. -/
def passes : Fate → Deed → Option Fate
  | .due _ _, _ => none
  | .waiting c leg pending, disturbed c' =>
    some (if c' = c then .doomed c pending else .waiting c leg pending)
  | .waiting c leg pending, invalidated c' =>
    some (if c' = c then .due c pending else .waiting c leg pending)
  | .doomed c pending, invalidated c' =>
    some (if c' = c then .due c pending else .doomed c pending)
  | f, _ => some f

/-- What becomes of a command by a deed. -/
def next (id : CommandId) (f : Fate) (deed : Deed) : Option Fate :=
  if deed.command? = some id then deed.meets f else deed.passes f

/-- What becomes of a command by some deeds. -/
def fateFrom (id : CommandId) (f : Fate) (deeds : List Deed) : Option Fate :=
  deeds.foldlM (fun f deed => deed.next id f) f

/-- What becomes of a command by some deeds from the beginning. -/
def fate (id : CommandId) (deeds : List Deed) : Option Fate := fateFrom id .unsent deeds

variable {id : CommandId} {f f' : Fate} {deed : Deed} {deeds before between later : List Deed}
  {c : CellId} {leg : Leg} {pending : Bool}

theorem fateFrom_cons :
    fateFrom id f (deed :: deeds) = (deed.next id f).bind (fateFrom id · deeds) := rfl

theorem fateFrom_append :
    fateFrom id f (before ++ later) = (fateFrom id f before).bind (fateFrom id · later) :=
  List.foldlM_append

theorem fate_append : fate id (before ++ later) = (fate id before).bind (fateFrom id · later) :=
  fateFrom_append

theorem fate_concat : fate id (deeds ++ [deed]) = (fate id deeds).bind (deed.next id) := by
  rw [fate_append]
  congr 1
  funext f
  rw [fateFrom_cons]
  cases deed.next id f <;> rfl

/-- The deed by which a command gets its fate. -/
theorem exists_next_of_concat (h : fate id (deeds ++ [deed]) = some f) :
    ∃ f', fate id deeds = some f' ∧ deed.next id f' = some f := by
  rw [fate_concat] at h
  exact Option.bind_eq_some_iff.mp h

/-- What a deed among others does to a command. -/
theorem exists_next_of_mem (h : fate id (before ++ deed :: later) = some f) :
    ∃ f₁ f₂, fate id before = some f₁ ∧ deed.next id f₁ = some f₂ := by
  rw [fate_append] at h
  obtain ⟨f₁, hf₁, hfrom⟩ := Option.bind_eq_some_iff.mp h
  rw [fateFrom_cons] at hfrom
  obtain ⟨f₂, hf₂, -⟩ := Option.bind_eq_some_iff.mp hfrom
  exact ⟨f₁, f₂, hf₁, hf₂⟩

theorem next_of_not_about (h : deed.command? ≠ some id) : deed.next id f = deed.passes f := if_neg h

theorem answers_eq_false (h : deed.command? ≠ some id) : deed.answers id = false := by
  cases deed <;> simp_all [answers, command?]

/-- Deeds about other commands do no more than disturb the cell. -/
theorem fateFrom_of_not_about (habout : ∀ deed ∈ deeds, deed.command? ≠ some id)
    (hkept : ∀ c, f.cell? = some c → .invalidated c ∉ deeds) (hdue : ∀ c p, f ≠ .due c p) :
    fateFrom id f deeds = some (f.disturbedBy deeds) := by
  induction deeds generalizing f with
  | nil => cases f <;> rfl
  | cons deed deeds ih =>
    obtain ⟨hdeed, habout⟩ := List.forall_mem_cons.mp habout
    have hkept' : ∀ c, f.cell? = some c → deed ≠ .invalidated c ∧ .invalidated c ∉ deeds :=
      fun c hc => by simpa [eq_comm] using hkept c hc
    have hrest : fateFrom id f deeds = some (f.disturbedBy deeds) :=
      ih habout (fun c hc => (hkept' c hc).2) hdue
    rw [fateFrom_cons, next_of_not_about hdeed]
    cases f with
    | due c p => exact absurd rfl (hdue c p)
    | unsent | past => cases deed <;> exact hrest
    | doomed c p =>
      have hstays : deed.passes (.doomed c p) = some (.doomed c p) := by
        cases deed with
        | invalidated c' =>
          have hne := (hkept' c rfl).1
          simp_all [passes]
        | _ => rfl
      rw [hstays]
      exact hrest
    | waiting c leg p =>
      by_cases hdisturbed : deed = .disturbed c
      · have hdoomed : fateFrom id (.doomed c p) deeds = some (.doomed c p) :=
          ih habout (fun c' hc' => (hkept' c' hc').2) (by simp)
        subst hdisturbed
        simp [passes, Fate.disturbedBy, hdoomed]
      · have hstays : deed.passes (.waiting c leg p) = some (.waiting c leg p) := by
          have hne := (hkept' c rfl).1
          cases deed <;> simp_all [passes]
        rw [hstays, Option.bind_some, hrest]
        simp [Fate.disturbedBy, Ne.symm hdisturbed]

/-! ### Outcomes -/

/-- A command that has an outcome has not had one before. -/
theorem past_of_next (h : deed.next id f = some f') :
    (f' = .past true ↔ f = .past true ∨ deed.ends id = true) ∧
      (f = .past true → deed.ends id = false) := by
  unfold next meets passes at h
  cases deed <;> cases f <;> grind [command?, ends]

/-- A command has at most one outcome, and has it when its fate is over. -/
theorem countP_ends (h : fate id deeds = some f) :
    deeds.countP (ends id) = if f = .past true then 1 else 0 := by
  induction deeds using List.reverseRecOn generalizing f with
  | nil =>
    cases h
    rfl
  | append_singleton deeds deed ih =>
    obtain ⟨f', hf', hnext⟩ := exists_next_of_concat h
    obtain ⟨hiff, hnot⟩ := past_of_next hnext
    rw [List.countP_append, ih hf', List.countP_singleton]
    by_cases hpast : f' = .past true
    · rw [if_pos hpast, if_pos (hiff.mpr (.inl hpast)), hnot hpast]
      rfl
    · rw [if_neg hpast, Nat.zero_add]
      exact if_congr (by rw [hiff, or_iff_right hpast]) rfl rfl

/-! ### How a command came to its fate -/

theorem next_eq_waiting (h : deed.next id f = some (.waiting c leg pending)) :
    f = .unsent ∧ deed = .sent c id leg ∧ pending = true ∨
      ∃ p, f = .waiting c leg p ∧ deed ≠ .disturbed c ∧ deed ≠ .invalidated c ∧
        (deed.command? ≠ some id ∧ p = pending ∨ deed = .withdrawn id ∧ pending = false) := by
  unfold next meets passes at h
  cases deed <;> cases f <;> grind [command?]

theorem next_eq_doomed (h : deed.next id f = some (.doomed c pending)) :
    (∃ leg, f = .waiting c leg pending) ∧ deed = .disturbed c ∨
      f = .doomed c pending ∧ deed ≠ .invalidated c ∧ deed.command? ≠ some id := by
  unfold next meets passes at h
  cases f with
  | waiting c' leg p =>
    have hcase : deed = .disturbed c' ∧ c' = c ∧ p = pending := by
      cases deed <;> grind [command?]
    obtain ⟨rfl, rfl, rfl⟩ := hcase
    exact .inl ⟨⟨leg, rfl⟩, rfl⟩
  | _ => cases deed <;> grind [command?]

theorem next_eq_due (h : deed.next id f = some (.due c pending)) :
    ((∃ leg, f = .waiting c leg pending) ∨ f = .doomed c pending) ∧ deed = .invalidated c := by
  unfold next meets passes at h
  cases f with
  | waiting c' leg p =>
    have hcase : deed = .invalidated c' ∧ c' = c ∧ p = pending := by
      cases deed <;> grind [command?]
    obtain ⟨rfl, rfl, rfl⟩ := hcase
    exact ⟨.inl ⟨leg, rfl⟩, rfl⟩
  | _ => cases deed <;> grind [command?]

/-- A command is cancelled when its cell has just been invalidated. -/
theorem due_of_next_cancelled (h : (cancelled id).next id f = some f') : ∃ c p, f = .due c p := by
  unfold next meets at h
  cases f <;> grind [command?]

/-- An answer is applied to the stage that the cell waits at. -/
theorem waiting_of_next_applied (h : (applied id leg).next id f = some f') :
    ∃ c, f = .waiting c leg true := by
  unfold next meets at h
  cases f <;> grind [command?]

/-- A cell that waits for a command sent it at the stage at which it is, and has not been disturbed
since. -/
theorem fate_waiting (h : fate id deeds = some (.waiting c leg pending)) :
    ∃ before between, deeds = before ++ .sent c id leg :: between ∧ ∀ deed ∈ between,
      deed ≠ .disturbed c ∧ deed ≠ .invalidated c ∧
        (deed.command? = some id → deed = .withdrawn id ∧ pending = false) := by
  induction deeds using List.reverseRecOn generalizing pending with
  | nil => cases h
  | append_singleton deeds deed ih =>
    obtain ⟨f', hf', hnext⟩ := exists_next_of_concat h
    rcases next_eq_waiting hnext with ⟨-, rfl, -⟩ | ⟨p, rfl, hdisturbed, hinvalidated, habout⟩
    · exact ⟨deeds, [], rfl, by simp⟩
    · obtain ⟨before, between, rfl, hbetween⟩ := ih hf'
      refine ⟨before, between ++ [deed], by simp, fun deed' hdeed' => ?_⟩
      rcases List.mem_append.mp hdeed' with hdeed' | hdeed'
      · obtain ⟨hd, hi, ha⟩ := hbetween deed' hdeed'
        refine ⟨hd, hi, fun hid => ⟨(ha hid).1, ?_⟩⟩
        rcases habout with ⟨-, rfl⟩ | ⟨-, rfl⟩
        · exact (ha hid).2
        · rfl
      · obtain rfl := List.mem_singleton.mp hdeed'
        exact ⟨hdisturbed, hinvalidated, fun hid => habout.resolve_left fun h => h.1 hid⟩

theorem answers_withdrawn (id id' : CommandId) : (withdrawn id').answers id = false := rfl

/-- What happens between the sending of a command and the moment when its cell gives up its run. -/
theorem fate_doomed (h : fate id deeds = some (.doomed c pending)) :
    ∃ before leg between, deeds = before ++ .sent c id leg :: between ∧ ∀ deed ∈ between,
      deed ≠ .invalidated c ∧ deed.answers id = false := by
  induction deeds using List.reverseRecOn generalizing pending with
  | nil => cases h
  | append_singleton deeds deed ih =>
    obtain ⟨f', hf', hnext⟩ := exists_next_of_concat h
    rcases next_eq_doomed hnext with ⟨⟨leg, rfl⟩, rfl⟩ | ⟨rfl, hinvalidated, habout⟩
    · obtain ⟨before, between, rfl, hbetween⟩ := fate_waiting hf'
      refine ⟨before, leg, between ++ [.disturbed c], by simp, fun deed' hdeed' => ?_⟩
      rcases List.mem_append.mp hdeed' with hdeed' | hdeed'
      · obtain ⟨-, hi, ha⟩ := hbetween deed' hdeed'
        refine ⟨hi, ?_⟩
        by_cases hid : deed'.command? = some id
        · rw [(ha hid).1, answers_withdrawn]
        · exact answers_eq_false hid
      · obtain rfl := List.mem_singleton.mp hdeed'
        exact ⟨by simp, rfl⟩
    · obtain ⟨before, leg, between, rfl, hbetween⟩ := ih hf'
      refine ⟨before, leg, between ++ [deed], by simp, fun deed' hdeed' => ?_⟩
      rcases List.mem_append.mp hdeed' with hdeed' | hdeed'
      · exact hbetween deed' hdeed'
      · obtain rfl := List.mem_singleton.mp hdeed'
        exact ⟨hinvalidated, answers_eq_false habout⟩

/-- A command that is about to be cancelled was sent by a cell that has just been invalidated, for the
first time since then, and no answer has arrived. -/
theorem fate_due (h : fate id deeds = some (.due c pending)) :
    ∃ before leg between, deeds = before ++ .sent c id leg :: between ++ [.invalidated c] ∧
      ∀ deed ∈ between, deed ≠ .invalidated c ∧ deed.answers id = false := by
  induction deeds using List.reverseRecOn with
  | nil => cases h
  | append_singleton deeds deed _ =>
    obtain ⟨f', hf', hnext⟩ := exists_next_of_concat h
    obtain ⟨⟨leg, rfl⟩ | rfl, rfl⟩ := next_eq_due hnext
    · obtain ⟨before, between, rfl, hbetween⟩ := fate_waiting hf'
      refine ⟨before, leg, between, rfl, fun deed' hdeed' => ?_⟩
      obtain ⟨-, hi, ha⟩ := hbetween deed' hdeed'
      refine ⟨hi, ?_⟩
      by_cases hid : deed'.command? = some id
      · rw [(ha hid).1, answers_withdrawn]
      · exact answers_eq_false hid
    · obtain ⟨before, leg, between, rfl, hbetween⟩ := fate_doomed hf'
      exact ⟨before, leg, between, rfl, hbetween⟩

/-! ### Where a command goes -/

/-- The cell of a command is going to be invalidated, or has just been. -/
def Sinking (c : CellId) (f : Fate) : Prop := ∃ pending, f = .doomed c pending ∨ f = .due c pending

theorem Sinking.next (hf : Sinking c f) (h : deed.next id f = some f') :
    Sinking c f' ∨ deed = .cancelled id := by
  obtain ⟨pending, rfl | rfl⟩ := hf
  all_goals
    unfold Deed.next meets passes at h
    unfold Sinking
    cases deed <;> grind [command?]

theorem Sinking.fateFrom (hf : Sinking c f) (h : fateFrom id f deeds = some f') :
    Sinking c f' ∨ .cancelled id ∈ deeds := by
  induction deeds generalizing f with
  | nil =>
    cases h
    exact .inl hf
  | cons deed deeds ih =>
    rw [fateFrom_cons] at h
    obtain ⟨f₁, hnext, hrest⟩ := Option.bind_eq_some_iff.mp h
    rcases hf.next hnext with hf₁ | rfl
    · exact (ih hf₁ hrest).imp_right fun hmem => List.mem_cons_of_mem _ hmem
    · exact .inr List.mem_cons_self

/-- A cell that waits goes on to wait until an answer arrives, or it is disturbed. -/
theorem next_waiting (h : deed.next id (.waiting c leg pending) = some f) :
    deed.answers id = true ∨ Sinking c f ∨
      (∃ p, f = .waiting c leg p) ∧ deed ≠ .disturbed c ∧ deed ≠ .invalidated c := by
  unfold Deed.next meets passes at h
  unfold Sinking
  cases deed <;> cases pending <;> grind [command?, answers]

theorem sinking_of_disturbed (hdeed : deed = .disturbed c ∨ deed = .invalidated c)
    (h : deed.next id (.waiting c leg pending) = some f) : Sinking c f := by
  rcases next_waiting h with hanswers | hf | ⟨-, hd, hi⟩
  · rcases hdeed with rfl | rfl <;> cases hanswers
  · exact hf
  · exact (hdeed.elim hd hi).elim

/-- A command that is sent has not been sent before, and its cell waits for it. -/
theorem fateFrom_of_sent (h : fate id (before ++ .sent c id leg :: later) = some f) :
    fateFrom id (.waiting c leg true) later = some f := by
  rw [fate_append] at h
  obtain ⟨f₀, -, hfrom⟩ := Option.bind_eq_some_iff.mp h
  rw [fateFrom_cons] at hfrom
  obtain ⟨f₁, hsent, hrest⟩ := Option.bind_eq_some_iff.mp hfrom
  have hwaiting : f₁ = .waiting c leg true := by
    unfold Deed.next meets at hsent
    cases f₀ <;> grind [command?]
  rwa [hwaiting] at hrest

/-- If the cell of a command is disturbed before an answer arrives, it is going to be invalidated, or
the command is cancelled. -/
theorem cancelled_of_disturbed
    (h : fate id (before ++ .sent c id leg :: between ++ deed :: later) = some f)
    (hdeed : deed = .disturbed c ∨ deed = .invalidated c)
    (hbetween : ∀ deed ∈ between, deed.answers id = false) :
    Sinking c f ∨ .cancelled id ∈ before ++ .sent c id leg :: between ++ deed :: later := by
  rw [List.append_assoc, List.cons_append] at h
  have hrest := fateFrom_of_sent h
  suffices hcancelled : ∀ p, fateFrom id (.waiting c leg p) (between ++ deed :: later) = some f →
      Sinking c f ∨ .cancelled id ∈ between ++ deed :: later by
    refine (hcancelled _ hrest).imp_right fun hmem => ?_
    rw [List.append_assoc]
    exact List.mem_append_right _ (List.mem_cons_of_mem _ hmem)
  clear h hrest
  induction between with
  | nil =>
    intro p hp
    rw [List.nil_append, fateFrom_cons] at hp
    obtain ⟨f₂, hnext, hlater⟩ := Option.bind_eq_some_iff.mp hp
    exact ((sinking_of_disturbed hdeed hnext).fateFrom hlater).imp_right
      fun hmem => List.mem_cons_of_mem _ hmem
  | cons deed' between ih =>
    intro p hp
    obtain ⟨hanswers, hbetween⟩ := List.forall_mem_cons.mp hbetween
    rw [List.cons_append, fateFrom_cons] at hp
    obtain ⟨f₂, hnext, hlater⟩ := Option.bind_eq_some_iff.mp hp
    rcases next_waiting hnext with htrue | hf₂ | ⟨⟨q, rfl⟩, -, -⟩
    · rw [hanswers] at htrue
      cases htrue
    · exact (hf₂.fateFrom hlater).imp_right fun hmem => List.mem_cons_of_mem _ hmem
    · exact (ih hbetween q hlater).imp_right fun hmem => List.mem_cons_of_mem _ hmem

end Deed

end MathCanvas
