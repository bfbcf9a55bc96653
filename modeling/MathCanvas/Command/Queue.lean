/-!
# A queue of commands

Commands wait in an outbox until a transport takes them (`DispatchQueue.next`), and are pending
until they are answered (`DispatchQueue.take`) or cancelled. A command that is no longer pending
when its turn comes is skipped.
-/

namespace MathCanvas

/-- Commands of type `α`, each under an id of type `κ`. -/
structure DispatchQueue (κ α : Type) where
  /-- The ids in order of dispatch that no transport has taken yet. -/
  outbox : List κ
  /-- The commands that wait for an answer, sent or not. -/
  pending : List (κ × α)
  deriving Inhabited

namespace DispatchQueue

variable {κ α : Type} [DecidableEq κ]

def empty : DispatchQueue κ α := ⟨[], []⟩

/-- The pending command of an id. -/
def find? (q : DispatchQueue κ α) (id : κ) : Option α := q.pending.lookup id

def isPending (q : DispatchQueue κ α) (id : κ) : Bool := (q.find? id).isSome

def pendingCount (q : DispatchQueue κ α) : Nat := q.pending.length

/-- The queue without the pending command of an id. -/
def cancel (q : DispatchQueue κ α) (id : κ) : DispatchQueue κ α :=
  { q with pending := q.pending.filter fun entry => entry.1 != id }

/-- Adds a command. One that is pending under the same id gives way to it. -/
def dispatch (q : DispatchQueue κ α) (id : κ) (command : α) : DispatchQueue κ α :=
  ⟨q.outbox ++ [id], (id, command) :: (q.cancel id).pending⟩

/-- The oldest command that is pending and not yet taken, with the outbox behind it. -/
def nextFrom (q : DispatchQueue κ α) : List κ → Option (κ × α) × List κ
  | [] => (none, [])
  | id :: rest =>
    match q.find? id with
    | some command => (some (id, command), rest)
    | none => q.nextFrom rest

/-- Takes the oldest command that is pending and not yet taken. -/
def next (q : DispatchQueue κ α) : Option (κ × α) × DispatchQueue κ α :=
  let (found, outbox) := q.nextFrom q.outbox
  (found, { q with outbox })

/-- Takes a pending command out in order to answer it. -/
def take (q : DispatchQueue κ α) (id : κ) : Option α × DispatchQueue κ α :=
  (q.find? id, q.cancel id)

end DispatchQueue

end MathCanvas
