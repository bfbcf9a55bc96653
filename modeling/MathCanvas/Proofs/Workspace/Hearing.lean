import MathCanvas.Proofs.Scope.Attendance
import MathCanvas.Proofs.Workspace.Chronicle

/-!
# One input listens to a reader

A cell makes a reader of its own for each of its inputs, and nobody else makes inputs listen. So at
most one input listens to a reader (`ScopeTree.Solo`), in every workspace that can be reached
(`Workspace.Run.solo`).
-/

namespace MathCanvas

namespace ScopeTree

variable {t t' : ScopeTree} {s p : ScopeId} {r x : ReaderId} {c : CellId} {name : String}

/-- At most one input listens to each reader. -/
def Solo (t : ScopeTree) : Prop := ∀ p r, (t.inputs p r).length ≤ 1

theorem Solo.of_inputs (h : t.Solo) (hless : ∀ p r, (t'.inputs p r).Sublist (t.inputs p r)) :
    t'.Solo := fun p r => (hless p r).length_le.trans (h p r)

/-- If only an input listens to a reader, it does so once. -/
theorem Solo.eq_singleton (h : t.Solo) (halone : ∀ {l}, l ∈ t.listeners p r → l = .input c name)
    (hl : .input c name ∈ t.listeners p r) : t.listeners p r = [.input c name] := by
  have honce : ((t.listeners p r).filterMap Listener.input?).length ≤ 1 := h p r
  generalize t.listeners p r = listeners at halone hl honce
  match listeners with
  | [] => cases hl
  | [l] => rw [halone List.mem_cons_self]
  | l :: m :: rest =>
    rw [halone List.mem_cons_self, halone (List.mem_cons_of_mem _ List.mem_cons_self)] at honce
    simp [Listener.input?] at honce

/-- No input listens to a reader whose number was not given out yet. -/
theorem inputs_eq_nil (h : t.WellTied) (hr : ¬t.Given s r) : t.inputs s r = [] :=
  List.eq_nil_iff_forall_not_mem.mpr fun _ hmem =>
    hr (given_of_listener h (mem_inputs_iff.mp hmem))

/-- An input of a reader that is new is the only one. -/
theorem Solo.addReader (h : t.Solo) (htied : t.WellTied) {y : Position}
    {made : ReaderId × List ReaderId × ScopeTree} (hadd : t.addReader s name y = some made)
    (l : Listener) : (made.2.2.listenToReader s made.1 l).Solo := by
  intro p x
  have hsub := (inputs_listenToReader made.2.2 s made.1 l p x).length_le
  have hbefore := (listensLess_addReader hadd).inputs p x
  by_cases hnew : s = p ∧ made.1 = x
  · obtain ⟨rfl, rfl⟩ := hnew
    rw [inputs_eq_nil htied (not_given_addReader htied hadd)] at hbefore
    rw [List.sublist_nil.mp hbefore, if_pos ⟨rfl, rfl⟩, List.nil_append] at hsub
    refine hsub.trans ?_
    cases l.input? <;> simp
  · rw [if_neg hnew, List.append_nil] at hsub
    exact hsub.trans (hbefore.length_le.trans (h p x))

end ScopeTree

namespace Workspace

variable {w : Workspace} {task : Task} {backend : Backend} {may : Workspace → Prop}
  {past : List Event}

theorem solo_perform (h : w.tree.Solo) (htied : w.tree.WellTied) (task : Task) :
    (w.perform task).tree.Solo := by
  by_cases hadd : ∃ c s name p, task = .cell c (.addInput s name p)
  swap
  · have hheeds : w.Heeds (fun _ => True) True (w.perform task) :=
      w.perform_heeds (fun _ _ => trivial) (fun _ => trivial) fun c s name p heq =>
        hadd ⟨c, s, name, p, heq⟩
    exact h.of_inputs hheeds.inputs
  obtain ⟨c, s, name, p, rfl⟩ := hadd
  cases hcell : w.cell? c with
  | none =>
    rw [perform_cell_of_none hcell]
    exact h
  | some cell =>
    rw [perform_cell hcell]
    unfold performCell
    simp only
    split
    · exact h
    split
    · exact h
    · exact h.addReader htied ‹_› _

theorem solo_sweep (h : w.tree.Solo) : w.sweep.tree.Solo :=
  h.of_inputs w.listensLess_sweep.inputs

theorem Run.solo (h : Run may { backend } past w) : w.tree.Solo := by
  refine (h.invariant (P := fun _ w => w.Ready ∧ w.tree.Solo) ⟨Reached.start.ready, fun p r => ?_⟩
    (fun _ w op hw hquiet => ⟨hw.1.call hquiet op, hw.2⟩)
    fun past w task rest hw _ hagenda => ⟨?_, ?_⟩).2
  · cases hp : ScopeTree.root.get? p with
    | none => simp [ScopeTree.inputs, ScopeTree.listeners, hp]
    | some scope =>
      obtain ⟨-, rfl⟩ := get?_root_eq_some hp
      simp [ScopeTree.inputs, ScopeTree.listeners, hp]
  · rw [← step_of_agenda hagenda]
    exact hw.1.step
  · exact solo_sweep (solo_perform (w := { w with agenda := rest }) hw.2 hw.1.tied task)

end Workspace

end MathCanvas
