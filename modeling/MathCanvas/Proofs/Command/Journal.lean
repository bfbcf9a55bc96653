import MathCanvas.Proofs.Command.Session
import Mathlib.Data.List.Nodup

/-!
# What a session answers

A `Journal` lists the calls of a session in the order in which they are made, those from inside of
callbacks included, each with its result and with what it sets off. The journal alone tells how the
session behaves, as long as no id is given to two commands (`Journal.regular`): a command waits from
its dispatch up to the first call that ends it (`Waits`), its callback runs if this call is an
answer, and envelopes are handed out in order of dispatch, to the commands that still wait when it
is their turn (`Turn`).

Every call from outside ends with all that it has set off in the journal (`Journal.call_settled`).
-/

namespace MathCanvas

/-! ### Journals -/

namespace QueueCall

/-- The command that a call dispatches, with its id. -/
def dispatched? : QueueCall → Option (String × QueuedCommand)
  | .dispatch id inputs expression onAnswer => some (id, ⟨inputs, expression, onAnswer⟩)
  | _ => none

/-- The id of the command that a call ends if it waits, by a cancellation or by an answer. -/
def ended? : QueueCall → Option String
  | .cancel id | .receive id _ => some id
  | .receiveText text => (Reply.parse? text).map (·.id)
  | _ => none

end QueueCall

/-- A call that has been made: what it gives back, the events that it records and the tasks that it
puts at the front of the agenda. -/
structure QueueEntry where
  call : QueueCall
  result : QueueResult
  events : List QueueEvent
  tasks : List QueueTask

namespace QueueEntry

/-- The id of the command that is dispatched. -/
def dispatches? (e : QueueEntry) : Option String := e.call.dispatched?.map Prod.fst

/-- The id of the envelope that is handed out. -/
def returns? (e : QueueEntry) : Option String :=
  match e.result with
  | .envelope next => next.map (·.id)
  | _ => none

/-- The ids of the commands whose callbacks run. -/
def answers (e : QueueEntry) : List String :=
  e.events.filterMap fun
    | .answered id _ => some id
    | .returned _ => none

end QueueEntry

namespace QueueSession

/-- The entry of a call. -/
def entry (s : QueueSession) (call : QueueCall) : QueueEntry :=
  let (result, after) := perform { s with agenda := [], history := [] } call
  ⟨call, result, after.history, after.agenda⟩

@[simp] theorem entry_call (s : QueueSession) (call : QueueCall) : (s.entry call).call = call := rfl

/-- The entries of the next step. -/
def entries (s : QueueSession) : List QueueEntry :=
  match s.agenda with
  | .call call :: _ => [s.entry call]
  | _ => []

/-- A call leaves the queue of its own, and sets off what its entry says. -/
theorem perform_eq (s : QueueSession) (call : QueueCall) :
    s.perform call = ((s.entry call).result, {
      queue := (s.perform call).2.queue
      agenda := (s.entry call).tasks ++ s.agenda
      history := s.history ++ (s.entry call).events }) := by
  obtain ⟨queue, agenda, history⟩ := s
  have hreceive : ∀ id outcome, receive ⟨queue, agenda, history⟩ id outcome =
      ((receive ⟨queue, [], []⟩ id outcome).1, {
        queue := (receive ⟨queue, agenda, history⟩ id outcome).2.queue
        agenda := (receive ⟨queue, [], []⟩ id outcome).2.agenda ++ agenda
        history := history ++ (receive ⟨queue, [], []⟩ id outcome).2.history }) := by
    intro id outcome
    unfold receive DispatchQueue.take
    cases queue.find? id <;> simp
  cases call with
  | receive id outcome => exact hreceive id outcome
  | receiveText text =>
    cases hparse : Reply.parse? text with
    | none => simp [entry, perform, hparse]
    | some reply =>
      simp only [entry, perform, hparse]
      exact hreceive reply.id reply.outcome
  | _ => simp [entry, perform]

/-- A malformed reply changes nothing. -/
theorem perform_malformed (s : QueueSession) {text : String} (h : Reply.parse? text = none) :
    s.perform (.receiveText text) = (.malformedReply, s) := by
  simp only [perform, h]

end QueueSession

/-- The entries of all calls of a session so far. Calls from outside are made when nothing is left
to do. -/
inductive Journal : List QueueEntry → QueueSession → Prop
  | start : Journal [] .empty
  | call {j : List QueueEntry} {s : QueueSession} (h : Journal j s) (hquiet : s.agenda = [])
      (call : QueueCall) :
      Journal (j ++ [s.entry call]) (QueueSession.perform { s with history := [] } call).2
  | step {j : List QueueEntry} {s : QueueSession} (h : Journal j s) :
      Journal (j ++ s.entries) s.step

namespace Journal

variable {j : List QueueEntry} {s : QueueSession} {e : QueueEntry} {id : String}
  {command : QueuedCommand} {q q' : DispatchQueue String QueuedCommand}

/-- The ids of the commands in order of dispatch. -/
def dispatched (j : List QueueEntry) : List String := j.filterMap QueueEntry.dispatches?

/-- The ids of the envelopes in the order in which they are handed out. -/
def returned (j : List QueueEntry) : List String := j.filterMap QueueEntry.returns?

/-- The ids of the commands whose callbacks have run. -/
def answered (j : List QueueEntry) : List String := j.flatMap QueueEntry.answers

/-- A command has been dispatched, and neither been cancelled nor answered since. -/
def Waits (j : List QueueEntry) (id : String) (command : QueuedCommand) : Prop :=
  ∃ before e after, j = before ++ e :: after ∧ e.call.dispatched? = some (id, command) ∧
    ∀ d ∈ after, d.call.ended? ≠ some id

/-- A command is the first in order of dispatch that waits and has not been handed out. -/
def Turn (j : List QueueEntry) (id : String) (command : QueuedCommand) : Prop :=
  Waits j id command ∧ id ∉ returned j ∧ ∃ before after, dispatched j = before ++ id :: after ∧
    ∀ x ∈ before, x ∈ returned j ∨ ∀ other, ¬Waits j x other

/-! ### What an entry has to be -/

/-- A call sets off nothing. -/
def Silent (e : QueueEntry) : Prop := e.events = [] ∧ e.tasks = []

/-- An answer for an id runs the callback of the command that waits under the id. Without such a
command it does nothing. -/
def Answers (j : List QueueEntry) (e : QueueEntry) (id : String) (outcome : Outcome) : Prop :=
  (∃ command, Waits j id command ∧ e.result = .flag true ∧ e.events = [.answered id outcome] ∧
    e.tasks = command.onAnswer.map .call) ∨
  (∀ command, ¬Waits j id command) ∧ e.result = .flag false ∧ Silent e

/-- What an entry is after the entries before it. -/
def Right (j : List QueueEntry) (e : QueueEntry) : Prop :=
  match e.call with
  | .dispatch _ _ _ _ | .cancel _ => e.result = .done ∧ Silent e
  | .next =>
    ((∃ id command, Turn j id command ∧
        e.result = .envelope (some ⟨id, command.inputs, command.expression⟩)) ∨
      (∀ id command, Waits j id command → id ∈ returned j) ∧ e.result = .envelope none) ∧ Silent e
  | .receive id outcome => Answers j e id outcome
  | .receiveText text =>
    match Reply.parse? text with
    | some reply => Answers j e reply.id reply.outcome
    | none => e.result = .malformedReply ∧ Silent e
  | .isPending id =>
    (∃ value, e.result = .flag value ∧ (value = true ↔ ∃ command, Waits j id command)) ∧ Silent e
  | .unreadable error => e.result = .unreadable error ∧ Silent e

/-- A session behaves as its journal tells. -/
structure Regular (j : List QueueEntry) (s : QueueSession) : Prop where
  /-- Every call has had the result and the effect that the calls before it make right. -/
  right : ∀ before e after, j = before ++ e :: after → Right before e
  /-- Pending are just the commands that wait. -/
  pending : ∀ id command, s.queue.find? id = some command ↔ Waits j id command
  /-- Every pending command is counted once. -/
  nodup_pending : s.queue.ids.Nodup
  /-- No callback runs twice. -/
  nodup_answered : (answered j).Nodup
  /-- Envelopes are handed out in order of dispatch, each at most once. -/
  returned_sublist : (returned j).Sublist (dispatched j)
  /-- A malformed reply changes nothing. -/
  malformed : ∀ text, Reply.parse? text = none →
    s.perform (.receiveText text) = (.malformedReply, s)
  /-- A call from outside ends with everything done that it has set off, all of it in the journal. -/
  settled : s.agenda = [] → ∀ call : QueueCall, (s.call call).2.agenda = [] ∧
    (s.call call).1 = (s.entry call).result ∧
      ∃ rest, Journal (j ++ s.entry call :: rest) (s.call call).2

/-! ### One entry more -/

@[simp] theorem dispatched_snoc : dispatched (j ++ [e]) = dispatched j ++ e.dispatches?.toList := by
  rw [dispatched, List.filterMap_append, dispatched]
  cases h : e.dispatches? <;> simp [h]

@[simp] theorem returned_snoc : returned (j ++ [e]) = returned j ++ e.returns?.toList := by
  rw [returned, List.filterMap_append, returned]
  cases h : e.returns? <;> simp [h]

@[simp] theorem answered_snoc : answered (j ++ [e]) = answered j ++ e.answers := by
  simp [answered]

/-- An entry of a longer journal is the last one, or an entry of the shorter journal. -/
theorem snoc_eq_append_cons {before after : List QueueEntry} {d : QueueEntry} :
    j ++ [e] = before ++ d :: after ↔
      (after = [] ∧ j = before ∧ e = d) ∨ ∃ rest, after = rest ++ [e] ∧ j = before ++ d :: rest := by
  constructor
  · intro heq
    rcases List.eq_nil_or_concat' after with rfl | ⟨rest, last, rfl⟩
    · obtain ⟨hj, he⟩ := List.append_inj' heq rfl
      exact .inl ⟨rfl, hj, List.singleton_inj.mp he⟩
    · rw [← List.cons_append, ← List.append_assoc] at heq
      obtain ⟨hj, he⟩ := List.append_inj' heq rfl
      exact .inr ⟨rest, by rw [List.singleton_inj.mp he], hj⟩
  · rintro (⟨rfl, rfl, rfl⟩ | ⟨rest, rfl, rfl⟩)
    · rfl
    · simp

theorem waits_snoc : Waits (j ++ [e]) id command ↔
    e.call.dispatched? = some (id, command) ∨ Waits j id command ∧ e.call.ended? ≠ some id := by
  constructor
  · rintro ⟨before, d, after, heq, hd, hafter⟩
    rcases snoc_eq_append_cons.mp heq with ⟨-, -, rfl⟩ | ⟨rest, rfl, rfl⟩
    · exact .inl hd
    · refine .inr ⟨⟨before, d, rest, rfl, hd, fun x hx => ?_⟩, ?_⟩
      · exact hafter x (List.mem_append_left _ hx)
      · exact hafter e (List.mem_append_right _ (List.mem_singleton_self e))
  · rintro (hd | ⟨⟨before, d, after, rfl, hd, hafter⟩, he⟩)
    · exact ⟨j, e, [], rfl, hd, by simp⟩
    · refine ⟨before, d, after ++ [e], by simp, hd, fun x hx => ?_⟩
      rcases List.mem_append.mp hx with hx | hx
      · exact hafter x hx
      · rwa [List.mem_singleton.mp hx]

theorem Waits.mem_dispatched (h : Waits j id command) : id ∈ dispatched j := by
  obtain ⟨before, e, after, rfl, he, -⟩ := h
  exact List.mem_filterMap.mpr ⟨e, by simp, by rw [QueueEntry.dispatches?, he]; rfl⟩

/-! ### The queue along a journal -/

/-- What a queue holds after the calls of a journal, with what the journal then says. -/
structure Tracks (j : List QueueEntry) (q : DispatchQueue String QueuedCommand) : Prop where
  right : ∀ before e after, j = before ++ e :: after → Right before e
  find : ∀ {id command}, q.find? id = some command ↔ Waits j id command
  nodup : q.ids.Nodup
  /-- Of the commands that are not in the outbox any more all are handed out that have waited. -/
  outbox : ∃ gone, dispatched j = gone ++ q.outbox ∧ (returned j).Sublist gone ∧
    ∀ x ∈ gone, x ∈ returned j ∨ q.find? x = none
  answered : ∀ id ∈ answered j, id ∈ dispatched j ∧ q.find? id = none
  nodup_answered : (Journal.answered j).Nodup

theorem Tracks.not_waits (h : Tracks j q) (hnone : q.find? id = none) : ¬Waits j id command := by
  intro hw
  rw [h.find.mpr hw] at hnone
  cases hnone

theorem Tracks.mem_dispatched (h : Tracks j q) (hid : q.find? id ≠ none) : id ∈ dispatched j := by
  obtain ⟨command, hcommand⟩ := Option.ne_none_iff_exists'.mp hid
  exact (h.find.mp hcommand).mem_dispatched

/-- The first command of the outbox that is pending has its turn. -/
theorem Tracks.turn (h : Tracks j q) (hnodup : (dispatched j).Nodup) {skipped rest : List String}
    (houtbox : q.outbox = skipped ++ id :: rest) (hskipped : ∀ x ∈ skipped, q.find? x = none)
    (hid : q.find? id = some command) : Turn j id command := by
  obtain ⟨gone, hgone, hreturned, hleft⟩ := h.outbox
  refine ⟨h.find.mp hid, fun hmem => ?_, gone ++ skipped, rest, ?_, fun x hx => ?_⟩
  · -- what has been handed out is not in the outbox
    rw [hgone] at hnodup
    exact (List.nodup_append.mp hnodup).2.2 id (hreturned.subset hmem) id (by simp [houtbox]) rfl
  · rw [hgone, houtbox, List.append_assoc]
  · rcases List.mem_append.mp hx with hx | hx
    · exact (hleft x hx).imp_right fun hnone _ => h.not_waits hnone
    · exact .inr fun _ => h.not_waits (hskipped x hx)

/-- If none of the outbox is pending, all commands that wait have been handed out. -/
theorem Tracks.mem_returned (h : Tracks j q) (hnone : ∀ x ∈ q.outbox, q.find? x = none)
    (hw : Waits j id command) : id ∈ returned j := by
  obtain ⟨gone, hgone, -, hleft⟩ := h.outbox
  have hmem := hw.mem_dispatched
  have hsome := h.find.mpr hw
  rw [hgone] at hmem
  rcases List.mem_append.mp hmem with hmem | hmem
  · exact (hleft id hmem).resolve_right (by simp [hsome])
  · rw [hnone id hmem] at hsome
    cases hsome

theorem tracks_start : Tracks [] DispatchQueue.empty where
  right before e after h := by simp at h
  find {id command} := by
    simp [Waits, DispatchQueue.find?, DispatchQueue.empty]
  nodup := List.nodup_nil
  outbox := ⟨[], rfl, List.Sublist.refl _, by simp⟩
  answered := by simp [Journal.answered]
  nodup_answered := List.nodup_nil

/-- The step from one entry to the next: of the queue only what is pending is needed, the part of
the outbox that is taken, and which callback runs. -/
theorem Tracks.snoc (h : Tracks j q) (hnodup : (dispatched (j ++ [e])).Nodup) (hright : Right j e)
    (hfind : ∀ id command, q'.find? id = some command ↔
      e.call.dispatched? = some (id, command) ∨ q.find? id = some command ∧ e.call.ended? ≠ some id)
    (hids : q'.ids.Nodup)
    (htaken : ∃ taken, q.outbox ++ e.dispatches?.toList = taken ++ q'.outbox ∧
      e.returns?.toList.Sublist taken ∧ ∀ x ∈ taken, e.returns? = some x ∨ q'.find? x = none)
    (hanswers : e.answers = [] ∨ ∃ id, e.answers = [id] ∧ q.find? id ≠ none ∧
      e.call.ended? = some id) :
    Tracks (j ++ [e]) q' := by
  rw [dispatched_snoc] at hnodup
  -- what has been dispatched before and does not wait, does not wait after
  have hout : ∀ {x}, x ∈ dispatched j → (q.find? x = none ∨ e.call.ended? = some x) →
      q'.find? x = none := by
    intro x hx hq
    rw [Option.eq_none_iff_forall_ne_some]
    intro command hfound
    rcases (hfind x command).mp hfound with hd | ⟨hold, hended⟩
    · refine (List.nodup_append.mp hnodup).2.2 x hx x ?_ rfl
      rw [QueueEntry.dispatches?, hd]
      simp
    · rcases hq with hq | hq
      · rw [hq] at hold
        cases hold
      · exact hended hq
  have hanswered : ∀ id ∈ e.answers, q.find? id ≠ none ∧ e.call.ended? = some id := by
    rcases hanswers with hnil | ⟨id, hid, hfound, hended⟩
    · simp [hnil]
    · simpa [hid] using ⟨hfound, hended⟩
  refine ⟨?_, ?_, hids, ?_, ?_, ?_⟩
  · intro before d after heq
    rcases snoc_eq_append_cons.mp heq with ⟨-, rfl, rfl⟩ | ⟨rest, -, hj⟩
    · exact hright
    · exact h.right before d rest hj
  · intro id command
    rw [hfind, waits_snoc, h.find]
  · obtain ⟨gone, hgone, hreturned, hleft⟩ := h.outbox
    obtain ⟨taken, htaken, hsub, hpassed⟩ := htaken
    refine ⟨gone ++ taken, ?_, ?_, ?_⟩
    · rw [dispatched_snoc, hgone, List.append_assoc, htaken, List.append_assoc]
    · rw [returned_snoc]
      exact hreturned.append hsub
    · intro x hx
      rw [returned_snoc]
      rcases List.mem_append.mp hx with hx | hx
      · rcases hleft x hx with hret | hnone
        · exact .inl (List.mem_append_left _ hret)
        · exact .inr (hout (by rw [hgone]; exact List.mem_append_left _ hx) (.inl hnone))
      · exact (hpassed x hx).imp_left fun hret => by simp [hret]
  · intro id hid
    rw [answered_snoc, List.mem_append] at hid
    rw [dispatched_snoc]
    rcases hid with hid | hid
    · obtain ⟨hmem, hnone⟩ := h.answered id hid
      exact ⟨List.mem_append_left _ hmem, hout hmem (.inl hnone)⟩
    · obtain ⟨hfound, hended⟩ := hanswered id hid
      have hmem := h.mem_dispatched hfound
      exact ⟨List.mem_append_left _ hmem, hout hmem (.inr hended)⟩
  · rw [answered_snoc]
    have hnew : e.answers.Nodup := by
      rcases hanswers with hnil | ⟨id, hid, -⟩
      · rw [hnil]
        exact List.nodup_nil
      · rw [hid]
        exact List.nodup_singleton id
    exact List.Nodup.append h.nodup_answered hnew fun id hold hid =>
      (hanswered id hid).1 (h.answered id hold).2

/-- An entry that only concerns what is pending. -/
theorem Tracks.snoc_pending (h : Tracks j q) (hnodup : (dispatched (j ++ [e])).Nodup)
    (hright : Right j e) (hdispatched : e.call.dispatched? = none) (hreturns : e.returns? = none)
    (hq : ∀ x, q'.find? x = if e.call.ended? = some x then none else q.find? x)
    (hids : q'.ids.Nodup) (houtbox : q'.outbox = q.outbox)
    (hanswers : e.answers = [] ∨ ∃ id, e.answers = [id] ∧ q.find? id ≠ none ∧
      e.call.ended? = some id) :
    Tracks (j ++ [e]) q' := by
  refine h.snoc hnodup hright (fun id command => ?_) hids ⟨[], ?_, ?_, by simp⟩ hanswers
  · rw [hq, hdispatched]
    split <;> simp [*]
  · simp [QueueEntry.dispatches?, hdispatched, houtbox]
  · simp [hreturns]

theorem Tracks.dispatch (h : Tracks j s.queue) {inputs : Inputs} {expression : Expr}
    {onAnswer : List QueueCall}
    (hnodup : (dispatched (j ++ [s.entry (.dispatch id inputs expression onAnswer)])).Nodup) :
    Tracks (j ++ [s.entry (.dispatch id inputs expression onAnswer)])
      (s.queue.dispatch id ⟨inputs, expression, onAnswer⟩) := by
  refine h.snoc hnodup ⟨rfl, rfl, rfl⟩ (fun x command => ?_)
    (DispatchQueue.nodup_ids_dispatch h.nodup id _) ⟨[], rfl, List.Sublist.refl _, by simp⟩ (.inl rfl)
  have hnew : s.queue.find? id = none := by
    rw [Option.eq_none_iff_forall_ne_some]
    intro command hold
    rw [dispatched_snoc] at hnodup
    exact (List.nodup_append.mp hnodup).2.2 id (h.find.mp hold).mem_dispatched id
      (List.mem_singleton_self id) rfl
  rw [DispatchQueue.find?_dispatch]
  by_cases hx : x = id
  · subst hx
    simp [QueueSession.entry, QueueSession.perform, QueueCall.dispatched?, hnew]
  · simp [QueueSession.entry, QueueSession.perform, QueueCall.dispatched?, QueueCall.ended?, hx,
      Ne.symm hx]

/-- The command that is handed out is the one whose turn it is. -/
theorem Tracks.next (h : Tracks j s.queue) (hnodup : (dispatched (j ++ [s.entry .next])).Nodup) :
    Tracks (j ++ [s.entry .next]) s.queue.next.2 := by
  have hnodup' : (dispatched j).Nodup := by
    rw [dispatched_snoc] at hnodup
    exact (List.nodup_append.mp hnodup).1
  have hfind : ∀ x command, s.queue.next.2.find? x = some command ↔
      (s.entry .next).call.dispatched? = some (x, command) ∨
        s.queue.find? x = some command ∧ (s.entry .next).call.ended? ≠ some x := by
    intro x command
    rw [DispatchQueue.find?_next]
    simp [QueueSession.entry, QueueSession.perform, QueueCall.dispatched?, QueueCall.ended?]
  rcases s.queue.nextFrom_spec s.queue.outbox with
    ⟨skipped, id, command, rest, houtbox, hskipped, hid, hnext⟩ | ⟨hnone, hnext⟩
  · have hentry : s.entry .next =
        ⟨.next, .envelope (some ⟨id, command.inputs, command.expression⟩), [], []⟩ := by
      simp [QueueSession.entry, QueueSession.perform, DispatchQueue.next, hnext]
    refine h.snoc hnodup ?_ hfind h.nodup ⟨skipped ++ [id], ?_, ?_, fun x hx => ?_⟩ (.inl rfl)
    · rw [hentry]
      exact ⟨.inl ⟨id, command, h.turn hnodup' houtbox hskipped hid, rfl⟩, rfl, rfl⟩
    · rw [hentry, DispatchQueue.next, hnext, houtbox]
      simp [QueueEntry.dispatches?, QueueCall.dispatched?]
    · rw [hentry]
      simp [QueueEntry.returns?]
    · rw [hentry]
      rcases List.mem_append.mp hx with hx | hx
      · exact .inr (hskipped x hx)
      · rw [List.mem_singleton.mp hx]
        exact .inl rfl
  · have hentry : s.entry .next = ⟨.next, .envelope none, [], []⟩ := by
      simp [QueueSession.entry, QueueSession.perform, DispatchQueue.next, hnext]
    refine h.snoc hnodup ?_ hfind h.nodup ⟨s.queue.outbox, ?_, ?_, fun x hx => .inr (hnone x hx)⟩
      (.inl rfl)
    · rw [hentry]
      exact ⟨.inr ⟨fun _ _ => h.mem_returned hnone, rfl⟩, rfl, rfl⟩
    · rw [hentry, DispatchQueue.next, hnext]
      rfl
    · rw [hentry]
      exact List.nil_sublist _

/-- A reply for an id, in either form. -/
theorem Tracks.answer (h : Tracks j s.queue) {call : QueueCall} {outcome : Outcome}
    (hnodup : (dispatched (j ++ [s.entry call])).Nodup)
    (hperform : ∀ t : QueueSession, t.perform call = t.receive id outcome)
    (hended : call.ended? = some id) (hdispatched : call.dispatched? = none)
    (hright : Answers j (s.entry call) id outcome → Right j (s.entry call)) :
    Tracks (j ++ [s.entry call]) (s.perform call).2.queue := by
  have hentry : s.entry call = ⟨call, (QueueSession.receive ⟨s.queue, [], []⟩ id outcome).1,
      (QueueSession.receive ⟨s.queue, [], []⟩ id outcome).2.history,
      (QueueSession.receive ⟨s.queue, [], []⟩ id outcome).2.agenda⟩ := by
    simp only [QueueSession.entry, hperform]
  rw [hperform]
  cases hid : s.queue.find? id with
  | some command =>
    have heq : s.entry call =
        ⟨call, .flag true, [.answered id outcome], command.onAnswer.map .call⟩ := by
      rw [hentry]
      simp [QueueSession.receive, DispatchQueue.take, hid]
    have hqueue : (s.receive id outcome).2.queue = s.queue.cancel id := by
      simp [QueueSession.receive, DispatchQueue.take, hid]
    rw [hqueue]
    refine h.snoc_pending hnodup (hright (.inl ⟨command, h.find.mp hid, ?_⟩)) ?_ ?_ (fun x => ?_)
      (DispatchQueue.nodup_ids_cancel h.nodup id) rfl (.inr ⟨id, ?_, by simp [hid], ?_⟩)
    all_goals rw [heq]
    · exact ⟨rfl, rfl, rfl⟩
    · exact hdispatched
    · rfl
    · rw [DispatchQueue.find?_cancel]
      simp only [hended, Option.some.injEq, eq_comm]
    · rfl
    · exact hended
  | none =>
    have heq : s.entry call = ⟨call, .flag false, [], []⟩ := by
      rw [hentry]
      simp [QueueSession.receive, DispatchQueue.take, hid]
    have hqueue : (s.receive id outcome).2.queue = s.queue := by
      simp [QueueSession.receive, DispatchQueue.take, hid]
    rw [hqueue]
    refine h.snoc_pending hnodup (hright (.inr ⟨fun _ => h.not_waits hid, ?_⟩)) ?_ ?_ (fun x => ?_)
      h.nodup rfl (.inl ?_)
    all_goals rw [heq]
    · exact ⟨rfl, rfl, rfl⟩
    · exact hdispatched
    · rfl
    · simp only [hended, Option.some.injEq]
      split
      · rename_i hx
        rw [← hx, hid]
      · rfl
    · rfl

/-- Every call keeps track. -/
theorem Tracks.perform (h : Tracks j s.queue) (call : QueueCall)
    (hnodup : (dispatched (j ++ [s.entry call])).Nodup) :
    Tracks (j ++ [s.entry call]) (s.perform call).2.queue := by
  cases call with
  | dispatch id inputs expression onAnswer => exact h.dispatch hnodup
  | next => exact h.next hnodup
  | cancel id =>
    refine h.snoc_pending hnodup ⟨rfl, rfl, rfl⟩ rfl rfl (fun x => ?_)
      (DispatchQueue.nodup_ids_cancel h.nodup id) rfl (.inl rfl)
    show (s.queue.cancel id).find? x = if some id = some x then none else s.queue.find? x
    rw [DispatchQueue.find?_cancel]
    simp only [Option.some.injEq, eq_comm]
  | receive id outcome => exact h.answer hnodup (fun _ => rfl) rfl rfl fun hright => hright
  | receiveText text =>
    cases hparse : Reply.parse? text with
    | some reply =>
      have hperform : ∀ t : QueueSession,
          t.perform (.receiveText text) = t.receive reply.id reply.outcome := fun t => by
        simp only [QueueSession.perform, hparse]
      refine h.answer hnodup hperform ?_ rfl fun hanswers => ?_
      · simp only [QueueCall.ended?, hparse, Option.map_some]
      · simp only [Right, QueueSession.entry_call, hparse]
        exact hanswers
    | none =>
      have hperform : ∀ t : QueueSession, t.perform (.receiveText text) = (.malformedReply, t) :=
        fun t => t.perform_malformed hparse
      have hentry : s.entry (.receiveText text) =
          ⟨.receiveText text, .malformedReply, [], []⟩ := by
        simp only [QueueSession.entry, hperform]
      have hended : (QueueCall.receiveText text).ended? = none := by
        simp [QueueCall.ended?, hparse]
      rw [hperform, hentry]
      rw [hentry] at hnodup
      refine h.snoc_pending hnodup ?_ rfl rfl (fun x => ?_) h.nodup rfl (.inl rfl)
      · simp only [Right, hparse, true_and]
        exact ⟨rfl, rfl⟩
      · rw [hended]
        rfl
  | isPending id =>
    refine h.snoc_pending hnodup ⟨⟨s.queue.isPending id, rfl, ?_⟩, rfl, rfl⟩ rfl rfl
      (fun x => rfl) h.nodup rfl (.inl rfl)
    rw [DispatchQueue.isPending, Option.isSome_iff_exists]
    exact exists_congr fun command => h.find
  | unreadable error =>
    exact h.snoc_pending hnodup ⟨rfl, rfl, rfl⟩ rfl rfl (fun _ => rfl) h.nodup rfl (.inl rfl)

/-! ### Whole journals -/

/-- The queue does not depend on the agenda, nor on what has been recorded. -/
theorem queue_perform (q : DispatchQueue String QueuedCommand) (agenda : List QueueTask)
    (history : List QueueEvent) (call : QueueCall) :
    (QueueSession.perform ⟨q, agenda, history⟩ call).2.queue =
      (QueueSession.perform ⟨q, [], []⟩ call).2.queue := by
  have hreceive : ∀ id outcome, (QueueSession.receive ⟨q, agenda, history⟩ id outcome).2.queue =
      (QueueSession.receive ⟨q, [], []⟩ id outcome).2.queue := by
    intro id outcome
    unfold QueueSession.receive DispatchQueue.take
    cases q.find? id <;> rfl
  cases call with
  | receive id outcome => exact hreceive id outcome
  | receiveText text =>
    cases hparse : Reply.parse? text with
    | none => simp only [QueueSession.perform, hparse]
    | some reply =>
      simp only [QueueSession.perform, hparse]
      exact hreceive reply.id reply.outcome
  | _ => rfl

theorem step_of_call {rest : List QueueTask} {call : QueueCall}
    (h : s.agenda = .call call :: rest) : s.step.queue = (s.perform call).2.queue := by
  obtain ⟨queue, agenda, history⟩ := s
  cases h
  exact (queue_perform queue [] history call).trans (queue_perform queue _ history call).symm

theorem nodup_of_append {l : List QueueEntry} (h : (dispatched (j ++ l)).Nodup) :
    (dispatched j).Nodup := by
  rw [dispatched, List.filterMap_append] at h
  exact (List.nodup_append.mp h).1

theorem tracks (h : Journal j s) (hnodup : (dispatched j).Nodup) : Tracks j s.queue := by
  induction h with
  | start => exact tracks_start
  | @call j s h hquiet call ih =>
    have hperform := (ih (nodup_of_append hnodup)).perform call hnodup
    have hqueue := (queue_perform s.queue s.agenda [] call).trans
      (queue_perform s.queue s.agenda s.history call).symm
    rw [hqueue]
    exact hperform
  | @step j s h ih =>
    have hold := ih (nodup_of_append hnodup)
    rw [QueueSession.entries] at hnodup ⊢
    match hagenda : s.agenda with
    | [] =>
      rw [QueueSession.step_of_nil hagenda]
      simpa using hold
    | .record result :: rest =>
      have hqueue : s.step.queue = s.queue := by
        rw [QueueSession.step, hagenda]
      rw [hqueue]
      simpa using hold
    | .call c :: rest =>
      rw [step_of_call hagenda]
      rw [hagenda] at hnodup
      exact hold.perform c hnodup

theorem repeat_step (h : Journal j s) (n : Nat) :
    ∃ rest, Journal (j ++ rest) (n.repeat QueueSession.step s) := by
  induction n with
  | zero => exact ⟨[], by rwa [List.append_nil]⟩
  | succ n ih =>
    obtain ⟨rest, hrest⟩ := ih
    have hstep := hrest.step
    rw [List.append_assoc] at hstep
    exact ⟨_, hstep⟩

/-- A call from outside ends with everything done that it has set off, all of it in the journal. -/
theorem call_settled (h : Journal j s) (hquiet : s.agenda = []) (c : QueueCall) :
    (s.call c).2.agenda = [] ∧ (s.call c).1 = (s.entry c).result ∧
      ∃ rest, Journal (j ++ s.entry c :: rest) (s.call c).2 := by
  refine ⟨QueueSession.agenda_settle _, ?_, ?_⟩
  · show (QueueSession.perform { s with history := [] } c).1 = _
    rw [QueueSession.perform_eq]
    rfl
  · obtain ⟨rest, hrest⟩ := (h.call hquiet c).repeat_step
      (QueueSession.perform { s with history := [] } c).2.work
    rw [List.append_assoc, List.singleton_append] at hrest
    exact ⟨rest, hrest⟩

/-- If no two commands have one id, a session behaves as its journal tells. -/
theorem regular (h : Journal j s) (hnodup : (dispatched j).Nodup) : Regular j s where
  right := (h.tracks hnodup).right
  pending _ _ := (h.tracks hnodup).find
  nodup_pending := (h.tracks hnodup).nodup
  nodup_answered := (h.tracks hnodup).nodup_answered
  returned_sublist := by
    obtain ⟨gone, hgone, hreturned, -⟩ := (h.tracks hnodup).outbox
    rw [hgone]
    exact hreturned.trans (List.sublist_append_left gone _)
  malformed _ := s.perform_malformed
  settled := h.call_settled

/-- The callback of `a` cancels `b`, answers `a` again in vain and dispatches `d`. Of the envelopes
those of `a`, `c` and `d` are handed out. -/
theorem regular_nested :
    ∃ j s, (Journal j s ∧ (dispatched j).Nodup) ∧ answered j = ["a", "c"] ∧
      returned j = ["a", "c", "d"] ∧ s.queue.ids = ["d"] ∧ Regular j s := by
  have h := ((Journal.start.call rfl (.dispatch "a" [] (.symbol "x")
    [.cancel "b", .receive "a" (.ok (.symbol "y")), .dispatch "d" [] (.symbol "z") []])).call rfl
      (.dispatch "b" [] (.symbol "y") [])).call rfl (.dispatch "c" [] (.symbol "y") [])
  have h := (((h.call rfl .next).call rfl (.receive "a" (.ok (.symbol "x")))).step.step.step.step.step
    ).step
  have h := (((h.call (by decide +kernel) .next).call rfl
    (.receiveText "\x7b\"id\":\"c\",\"error\":\"no\"\x7d")).call (by decide +kernel) .next).call
      (by decide +kernel) (.receiveText "\x7b\"id\":\"d\"\x7d")
  exact ⟨_, _, ⟨h, by decide +kernel⟩, by decide +kernel, by decide +kernel, by decide +kernel,
    h.regular (by decide +kernel)⟩

end Journal

end MathCanvas
