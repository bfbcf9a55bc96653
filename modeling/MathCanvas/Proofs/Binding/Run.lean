import MathCanvas.Proofs.Binding.Readers
import Mathlib.Data.List.Induction

/-!
# Runs of operations

A run starts from the empty table and makes any operations, with any names, positions and numbers:
numbers of slots and readers that are there, that have been removed, that belong to importers, or
that were never given out. Every operation takes consistent bindings to consistent bindings
(`Consistent.call`), so a run only ever sees consistent ones (`consistent_run`).
-/

namespace MathCanvas

/-- An operation on bindings. -/
inductive BindingCall where
  | addDefinition (name : String) (position : Position)
  | moveDefinition (id : SlotId) (position : Position)
  | removeDefinition (id : SlotId)
  | setValue (id : SlotId) (value : SlotValue)
  | setImported (name : String) (value : SlotValue)
  | addReader (name : String) (position : Position)
  | moveReader (id : ReaderId) (position : Position)
  | removeReader (id : ReaderId)
  deriving DecidableEq, Inhabited

/-- What an operation on bindings gives back. -/
structure BindingReply where
  /-- The number of the definition or reader that was added. -/
  made : Option Nat := none
  changes : Changes := {}
  deriving DecidableEq, Inhabited

namespace Bindings

/-- Makes an operation. -/
def call (b : Bindings) : BindingCall → BindingReply × Bindings
  | .addDefinition name p =>
    let (id, changes, b) := b.addDefinition name p
    ({ made := some id, changes }, b)
  | .moveDefinition id p => let (changes, b) := b.moveDefinition id p; ({ changes }, b)
  | .removeDefinition id => let (changes, b) := b.removeDefinition id; ({ changes }, b)
  | .setValue id v => let (changes, b) := b.setValue id v; ({ changes }, b)
  | .setImported name v => let (changes, b) := b.setImported name v; ({ changes }, b)
  | .addReader name p =>
    let (id, changes, b) := b.addReader name p
    ({ made := some id, changes }, b)
  | .moveReader id p => let (changes, b) := b.moveReader id p; ({ changes }, b)
  | .removeReader id => let (changes, b) := b.removeReader id; ({ changes }, b)

/-- The bindings after a series of operations on the empty table. -/
def run (calls : List BindingCall) : Bindings :=
  calls.foldl (fun b c => (b.call c).2) empty

theorem run_append (calls : List BindingCall) (c : BindingCall) :
    run (calls ++ [c]) = ((run calls).call c).2 := by
  rw [run, List.foldl_append]
  rfl

variable {b : Bindings}

theorem Consistent.addDefinition (hb : b.Consistent) (name : String) (p : Position) :
    (b.addDefinition name p).2.2.Consistent := by
  obtain ⟨c, opened, -, hadded, -⟩ := addDefinition_spec hb name p
  exact hadded.toConsistent

theorem Consistent.moveDefinition (hb : b.Consistent) (id : SlotId) (p : Position) :
    (b.moveDefinition id p).2.Consistent := by
  cases h : b.slots[id]? with
  | none => rwa [moveDefinition_of_none h]
  | some slot =>
    cases hp : slot.place with
    | importer => rwa [moveDefinition_of_importer h hp]
    | placed old =>
      by_cases hsame : old.same p = true
      · rwa [moveDefinition_of_same h hp hsame]
      · exact (moveDefinition_spec hb h hp (by simpa using hsame)).1.toConsistent

theorem Consistent.removeDefinition (hb : b.Consistent) (id : SlotId) :
    (b.removeDefinition id).2.Consistent := by
  cases h : b.slots[id]? with
  | none => rwa [removeDefinition_of_none h]
  | some slot =>
    by_cases hp : slot.place = .importer
    · rwa [removeDefinition_of_importer h hp]
    · obtain ⟨c, -, -, hconsistent, -⟩ := removeDefinition_spec hb h hp
      exact hconsistent

theorem Consistent.setValue (hb : b.Consistent) (id : SlotId) (v : SlotValue) :
    (b.setValue id v).2.Consistent := by
  cases h : b.slots[id]? with
  | none => rwa [setValue_of_none h]
  | some slot =>
    by_cases hv : slot.value.valueEq v = true
    · rwa [setValue_of_valueEq h hv]
    · exact (setValue_spec hb h (by simpa using hv)).1.toConsistent

theorem Consistent.setImported (hb : b.Consistent) (name : String) (v : SlotValue) :
    (b.setImported name v).2.Consistent := by
  unfold Bindings.setImported
  split
  · exact hb.setValue _ v
  · exact hb

theorem Consistent.addReader (hb : b.Consistent) (name : String) (p : Position) :
    (b.addReader name p).2.2.Consistent := by
  obtain ⟨c, opened, -, -, hanchored, -⟩ := addReader_spec hb name p
  exact hanchored.toConsistent

theorem Consistent.moveReader (hb : b.Consistent) (id : ReaderId) (p : Position) :
    (b.moveReader id p).2.Consistent := by
  cases h : b.readers[id]? with
  | none => rwa [moveReader_of_none h]
  | some reader => exact (moveReader_spec hb h p).1.toConsistent

theorem Consistent.removeReader (hb : b.Consistent) (id : ReaderId) :
    (b.removeReader id).2.Consistent := by
  cases h : b.readers[id]? with
  | none => rwa [removeReader_of_none h]
  | some reader =>
    obtain ⟨c, -, -, -, hconsistent, -⟩ := removeReader_spec hb h
    exact hconsistent

theorem Consistent.call (hb : b.Consistent) (c : BindingCall) : (b.call c).2.Consistent := by
  cases c with
  | addDefinition name p => exact hb.addDefinition name p
  | moveDefinition id p => exact hb.moveDefinition id p
  | removeDefinition id => exact hb.removeDefinition id
  | setValue id v => exact hb.setValue id v
  | setImported name v => exact hb.setImported name v
  | addReader name p => exact hb.addReader name p
  | moveReader id p => exact hb.moveReader id p
  | removeReader id => exact hb.removeReader id

/-- A property of the empty table that every operation on consistent bindings keeps holds after
every run. -/
theorem run_induction {P : List BindingCall → Bindings → Prop} (h₀ : P [] empty)
    (hstep : ∀ calls b c, b.Consistent → P calls b → P (calls ++ [c]) (b.call c).2)
    (calls : List BindingCall) : (run calls).Consistent ∧ P calls (run calls) := by
  induction calls using List.reverseRecOn with
  | nil => exact ⟨consistent_empty, h₀⟩
  | append_singleton calls c ih =>
    rw [run_append]
    exact ⟨ih.1.call c, hstep calls _ c ih.1 ih.2⟩

theorem consistent_run (calls : List BindingCall) : (run calls).Consistent :=
  (run_induction (P := fun _ _ => True) trivial (fun _ _ _ _ _ => trivial) calls).1

end Bindings

end MathCanvas
