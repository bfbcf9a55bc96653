import MathCanvas.Command.Message
import MathCanvas.Command.Queue

/-!
# Sessions with a command queue

A command carries what its owner does when it is answered: a list of further calls to the same
queue, which run at once, inside the call that brought the answer. A `QueueSession` keeps the
calls that are still to run on an agenda; `QueueSession.step` runs the first of them. Every step
makes `QueueSession.work` smaller, so that `QueueSession.settle` runs them all.
-/

namespace MathCanvas

/-- A call to a queue. -/
inductive QueueCall where
  | dispatch (id : String) (inputs : Inputs) (expression : Expr) (onAnswer : List QueueCall)
  | cancel (id : String)
  | next
  | receive (reply : String) (outcome : Outcome)
  /-- Receives a reply in its text form. -/
  | receiveText (text : String)
  | isPending (id : String)
  /-- A call whose expression cannot be read. -/
  | unreadable (error : ExprFault)
  deriving Inhabited

namespace QueueCall

mutual

/-- The number of calls in a call, itself and those of its command included. -/
def size : QueueCall → Nat
  | .dispatch _ _ _ onAnswer => 1 + sizeAll onAnswer
  | _ => 1

def sizeAll : List QueueCall → Nat
  | [] => 0
  | call :: rest => size call + sizeAll rest

end

end QueueCall

/-- What a call gives back. -/
inductive QueueResult where
  | done
  | envelope (next : Option Envelope)
  | flag (value : Bool)
  | malformedReply
  | unreadable (error : ExprFault)
  deriving Inhabited

/-- What a session records: answers that arrive, and the results of calls made by their owners. -/
inductive QueueEvent where
  | answered (id : String) (outcome : Outcome)
  | returned (result : QueueResult)
  deriving Inhabited

/-- A command with what its owner does when it is answered. -/
structure QueuedCommand where
  inputs : Inputs
  expression : Expr
  onAnswer : List QueueCall
  deriving Inhabited

/-- What is still to do: a call, or to record the result of one. -/
inductive QueueTask where
  | call (call : QueueCall)
  | record (result : QueueResult)
  deriving Inhabited

/-- The steps that a task can take: for every call one to make it and one to record its result. -/
def QueueTask.work : QueueTask → Nat
  | .call c => 2 * c.size
  | .record _ => 1

structure QueueSession where
  queue : DispatchQueue String QueuedCommand
  agenda : List QueueTask
  history : List QueueEvent
  deriving Inhabited

namespace QueueSession

def empty : QueueSession := ⟨.empty, [], []⟩

/-- Brings an answer. Its owner's calls go to the front of the agenda. -/
def receive (s : QueueSession) (id : String) (outcome : Outcome) : QueueResult × QueueSession :=
  match s.queue.take id with
  | (some command, queue) =>
    (.flag true, {
      queue
      agenda := command.onAnswer.map .call ++ s.agenda
      history := s.history ++ [.answered id outcome] })
  | (none, _) => (.flag false, s)

/-- Performs a call; what it sets off is put on the agenda. -/
def perform (s : QueueSession) : QueueCall → QueueResult × QueueSession
  | .dispatch id inputs expression onAnswer =>
    (.done, { s with queue := s.queue.dispatch id ⟨inputs, expression, onAnswer⟩ })
  | .cancel id => (.done, { s with queue := s.queue.cancel id })
  | .next =>
    let (found, queue) := s.queue.next
    (.envelope (found.map fun (id, command) => ⟨id, command.inputs, command.expression⟩),
      { s with queue })
  | .receive id outcome => s.receive id outcome
  | .receiveText text =>
    match Reply.parse? text with
    | some reply => s.receive reply.id reply.outcome
    | none => (.malformedReply, s)
  | .isPending id => (.flag (s.queue.isPending id), s)
  | .unreadable error => (.unreadable error, s)

/-- Does the first task of the agenda. The result of a call is recorded after all that the call
has set off. -/
def step (s : QueueSession) : QueueSession :=
  match s.agenda with
  | [] => s
  | .record result :: rest => { s with agenda := rest, history := s.history ++ [.returned result] }
  | .call call :: rest =>
    let (result, after) := perform { s with agenda := [] } call
    { after with agenda := after.agenda ++ .record result :: rest }

/-- A bound on the steps that a session can still make. -/
def work (s : QueueSession) : Nat :=
  s.agenda.foldr (fun task total => task.work + total) 0
    + s.queue.pending.foldr (fun entry total => 2 * QueueCall.sizeAll entry.2.onAnswer + total) 0

/-- Runs everything on the agenda. -/
def settle (s : QueueSession) : QueueSession := s.work.repeat step s

/-- Makes a call from outside and runs all that it sets off; the history holds the events of this
call alone. -/
def call (s : QueueSession) (call : QueueCall) : QueueResult × QueueSession :=
  let (result, after) := perform { s with history := [] } call
  (result, after.settle)

end QueueSession

end MathCanvas
