import MathCanvas.Proofs.Document.Course
import MathCanvas.Proofs.Document.Regions

/-!
# The cells of a document in order

A document keeps its cells in the order of their positions. A cell that is made or moved is put
behind all cells that are not after its position (`Layout.place`), so that it comes last at its
position.
-/

namespace MathCanvas

namespace Layout

variable {l : Layout} {c c' : CellId} {p : Position} {scope : Option ScopeId}

/-- The layout with a cell put behind all other cells that are not after a position. -/
def place (l : Layout) (c : CellId) (p : Position) (scope : Option ScopeId) : Layout where
  order :=
    (l.order.filter (· != c)).takeWhile (fun c' => decide (l.position c' ≤ p))
      ++ c :: (l.order.filter (· != c)).dropWhile (fun c' => decide (l.position c' ≤ p))
  position := Function.update l.position c p
  scope := Function.update l.scope c scope

theorem position_place : (l.place c p scope).position c = p := Function.update_self ..

theorem scope_place : (l.place c p scope).scope c = scope := Function.update_self ..

theorem mem_place_self : c ∈ (l.place c p scope).order :=
  List.mem_append_right _ List.mem_cons_self

theorem around_place : l.Around c (l.place c p scope) where
  order := by
    show List.filter _ (_ ++ c :: _) = _
    rw [List.filter_append, List.filter_cons_of_neg (by simp), ← List.filter_append,
      List.takeWhile_append_dropWhile, List.filter_filter]
    simp
  position _ hne := Function.update_of_ne hne _ _
  scope _ hne := Function.update_of_ne hne _ _

/-- In an order by positions, the cells from the first one on that is after a position are all after
it. -/
theorem lt_of_mem_dropWhile {order : List CellId} {position : CellId → Position}
    (hsorted : order.Pairwise fun c c' => position c ≤ position c')
    (hc : c ∈ order.dropWhile fun c' => decide (position c' ≤ p)) : p < position c := by
  induction order with
  | nil => cases hc
  | cons a rest ih =>
    rw [List.pairwise_cons] at hsorted
    by_cases ha : position a ≤ p
    · rw [List.dropWhile_cons_of_pos (by simpa using ha)] at hc
      exact ih hsorted.2 hc
    · rw [List.dropWhile_cons_of_neg (by simpa using ha)] at hc
      have hlt : p < position a := Position.not_le.mp ha
      rcases List.mem_cons.mp hc with rfl | hc
      · exact hlt
      · exact Position.lt_trans_le hlt (hsorted.1 c hc)

section Proper

variable (h : l.Proper)
include h

theorem Proper.place : (l.place c p scope).Proper := by
  have hne : ∀ {c'}, c' ∈ l.order.filter (· != c) → c' ≠ c := by simp
  have hsorted := h.sorted.filter (· != c)
  have hnodup : ((l.order.filter (· != c)).takeWhile (fun c' => decide (l.position c' ≤ p))
      ++ (l.order.filter (· != c)).dropWhile (fun c' => decide (l.position c' ≤ p))).Nodup := by
    rw [List.takeWhile_append_dropWhile]
    exact h.nodup.filter _
  have hmem : c ∉ (l.order.filter (· != c)).takeWhile (fun c' => decide (l.position c' ≤ p))
      ++ (l.order.filter (· != c)).dropWhile (fun c' => decide (l.position c' ≤ p)) := by
    rw [List.takeWhile_append_dropWhile]
    simp
  refine ⟨?_, ?_⟩
  · exact List.nodup_middle.mpr (List.nodup_cons.mpr ⟨hmem, hnodup⟩)
  · have hothers : (l.order.filter (· != c)).Pairwise fun c₁ c₂ =>
        Function.update l.position c p c₁ ≤ Function.update l.position c p c₂ := by
      refine hsorted.imp_of_mem fun h₁ h₂ hle => ?_
      rw [Function.update_of_ne (hne h₁), Function.update_of_ne (hne h₂)]
      exact hle
    rw [← List.takeWhile_append_dropWhile (p := fun c' => decide (l.position c' ≤ p))
      (l := l.order.filter (· != c)), List.pairwise_append] at hothers
    show List.Pairwise _ (_ ++ c :: _)
    rw [List.pairwise_append, List.pairwise_cons]
    refine ⟨hothers.1, ⟨fun c' hc' => ?_, hothers.2.1⟩, fun c₁ h₁ c₂ h₂ => ?_⟩
    · show Function.update l.position c p c ≤ Function.update l.position c p c'
      rw [Function.update_self, Function.update_of_ne (hne ((List.dropWhile_sublist _).mem hc'))]
      exact Position.le_of_lt (lt_of_mem_dropWhile hsorted hc')
    · rcases List.mem_cons.mp h₂ with rfl | h₂
      · show Function.update l.position c₂ p c₁ ≤ Function.update l.position c₂ p c₂
        rw [Function.update_self, Function.update_of_ne (hne ((List.takeWhile_sublist _).mem h₁))]
        simpa using List.mem_takeWhile_imp h₁
      · exact hothers.2.2 c₁ h₁ c₂ h₂

theorem Proper.last_place : (l.place c p scope).Last c := by
  have hne : ∀ {c'}, c' ∈ l.order.filter (· != c) → c' ≠ c := by simp
  have hnot : c ∉ (l.order.filter (· != c)).takeWhile (fun c' => decide (l.position c' ≤ p)) := by
    intro hc
    exact hne ((List.takeWhile_sublist _).mem hc) rfl
  have hrank : (l.place c p scope).rank c
      = ((l.order.filter (· != c)).takeWhile fun c' => decide (l.position c' ≤ p)).length := by
    show List.idxOf c (_ ++ c :: _) = _
    rw [List.idxOf_append_of_notMem hnot, List.idxOf_cons_self, Nat.add_zero]
  intro c' hc' hsame
  rcases List.mem_append.mp hc' with hbefore | hbehind
  · rw [hrank]
    show List.idxOf c' (_ ++ c :: _) ≤ _
    rw [List.idxOf_append_of_mem hbefore]
    exact Nat.le_of_lt (List.idxOf_lt_length_of_mem hbefore)
  · rcases List.mem_cons.mp hbehind with rfl | hbehind
    · exact Nat.le_refl _
    · -- the cells behind it are after the position
      have hlt := lt_of_mem_dropWhile (h.sorted.filter (· != c)) hbehind
      rw [position_place, around_place.position c' (hne ((List.dropWhile_sublist _).mem hbehind))]
        at hsame
      exact absurd hlt (Position.not_lt.mpr (Position.same_iff.mp hsame).1)

end Proper

theorem order_place_congr {q : Position} {scope' : Option ScopeId} (h : p.same q = true) :
    (l.place c p scope).order = (l.place c q scope').order := by
  have hle : (fun c' => decide (l.position c' ≤ p)) = fun c' => decide (l.position c' ≤ q) := by
    funext c'
    obtain ⟨hpq, hqp⟩ := Position.same_iff.mp h
    rw [decide_eq_decide]
    exact ⟨fun hp => Position.le_trans hp hpq, fun hq => Position.le_trans hq hqp⟩
  rw [place, place, hle]

/-- The layout with some cells in scopes that are given. -/
def moved (l : Layout) (target : CellId → ScopeId) (done : List CellId) : Layout :=
  { l with scope := fun c => if c ∈ done then some (target c) else l.scope c }

theorem moved_nil {target : CellId → ScopeId} : l.moved target [] = l := by simp [moved]

theorem withScope_moved {target : CellId → ScopeId} {done : List CellId} :
    (l.moved target done).withScope c (some (target c)) = l.moved target (done ++ [c]) := by
  unfold withScope moved
  congr 1
  funext c'
  by_cases hc : c' = c
  · simp [hc]
  · simp [hc]

end Layout

namespace Workspace

variable {w : Workspace} {ties : Prop} {l : Layout} {c : CellId}

/-- Where a cell comes last at its own position, definitions stay in the order of their cells if no
cell behind it at its position shares a name with it. -/
theorem Ranked.place (h : w.Ranked l none) (hh : w.Housed l [] [] none) (hl : l.Proper)
    (hconsistent : w.tree.Consistent) (hc : c ∈ l.order)
    (hshares : ∀ {s name x c' y}, w.outputOf c s name = some x → w.outputOf c' s name = some y →
      (l.position c').same (l.position c) = true → l.rank c' ≤ l.rank c) :
    w.Ranked (l.place c (l.position c) (l.scope c)) none := by
  set l' := l.place c (l.position c) (l.scope c) with hl'
  have hposition : l'.position = l.position := Function.update_eq_self _ _
  have haround : l.Around c l' := Layout.around_place
  have hproper : l'.Proper := hl.place
  have hmem : ∀ {c'}, c' ∈ l.order → c' ∈ l'.order := by
    intro c' hc'
    by_cases hne : c' = c
    · exact hne ▸ Layout.mem_place_self
    · exact (haround.mem_iff hne).mpr hc'
  refine ⟨fun s name => (h.inRank s name).imp fun {a b} hab c₁ c₂ h₁ h₂ ha hb => ?_,
    fun hx hp hsame => ?_⟩
  · rw [hposition] at ha hb
    have hrank := hab c₁ c₂ h₁ h₂ ha hb
    have hc₁ := (hh.owner h₁).1
    have hc₂ := (hh.owner h₂).1
    by_cases heq : c₁ = c₂
    · rw [heq]
    have hle : l.position c₁ ≤ l.position c₂ :=
      hl.position_le hc₁ hc₂ (lt_of_le_of_ne hrank fun hr => heq (Layout.eq_of_rank_eq hc₁ hr))
    by_cases hback : l.position c₂ ≤ l.position c₁
    · have hsame : (l.position c₁).same (l.position c₂) = true := Position.same_iff.mpr ⟨hle, hback⟩
      by_cases hne₁ : c₁ = c
      · -- the other one would be behind it and share a name with it
        subst hne₁
        have hless := hshares (has_none.mp h₁) (has_none.mp h₂) (Position.same_symm hsame)
        exact absurd (Layout.eq_of_rank_eq hc₁ (Nat.le_antisymm hrank hless)) heq
      by_cases hne₂ : c₂ = c
      · subst hne₂
        refine hl.last_place c₁ (hmem hc₁) ?_
        rw [← hl', hposition]
        exact hsame
      · exact haround.rank_le hne₁ hne₂ hc₁ hrank
    · refine hproper.rank_le (hmem hc₁) (hmem hc₂) ?_
      rw [hposition]
      exact Position.not_le.mp hback
  · rw [hposition, hh.same_position hconsistent hx hp] at hsame
    cases hsame

/-- All cells go to the scopes that are given for them, one after the other. -/
theorem course_moved {held : List ScopeId} {target : CellId → ScopeId} (hl : l.Proper)
    (hheld : ∀ c, target c ∈ held)
    (hscope : ∀ c ∈ l.order, ∀ c' ∈ l.order, (l.position c').same (l.position c) = true →
      l.scope c' = l.scope c) :
    ∀ todo done, l.order = done ++ todo →
      Course ties held (l.moved target l.order) (todo.map fun c => .setScope c (some (target c)))
        (l.moved target done) := by
  intro todo
  induction todo with
  | nil =>
    intro done horder
    rw [List.append_nil] at horder
    rw [List.map_nil, horder]
    exact .done
  | cons c todo ih =>
    intro done horder
    have hnext := ih (done ++ [c]) (by rw [horder, List.append_assoc, List.singleton_append])
    rw [List.map_cons]
    have hproper : ∀ done, (l.moved target done).Proper := fun done => ⟨hl.nodup, hl.sorted⟩
    have hc : c ∈ l.order := by simp [horder]
    refine .next (hproper (done ++ [c])) (fun w hconsistent hw htidy => ?_) hnext
    rw [← Layout.withScope_moved]
    refine htidy.operate_setScope hconsistent hc
      (fun s hs => hw ▸ Option.some.inj hs ▸ hheld c) fun _ hother c' hc' hsame heq => ?_
    rw [Layout.withScope_moved] at hc' hsame heq ⊢
    have hnodup := hl.nodup
    rw [horder, List.nodup_append] at hnodup
    have hnot : c ∉ done := fun hmem => hnodup.2.2 c hmem c List.mem_cons_self rfl
    show l.order.idxOf c' ≤ l.order.idxOf c
    by_cases hdone : c' ∈ done
    · rw [horder, List.idxOf_append_of_mem hdone, List.idxOf_append_of_notMem hnot]
      exact Nat.le_of_lt (Nat.lt_of_lt_of_le (List.idxOf_lt_length_of_mem hdone) (Nat.le_add_right _ _))
    by_cases hself : c' = c
    · rw [hself]
    · -- a cell whose turn is still to come is in the same scope as this one was
      have hwas : (l.moved target done).scope c = l.scope c := if_neg hnot
      have hthere : (l.moved target (done ++ [c])).scope c' = l.scope c' :=
        if_neg (by simp [hdone, hself])
      have hgoal : (l.moved target (done ++ [c])).scope c = some (target c) := if_pos (by simp)
      rw [hthere, hgoal, hscope c hc c' hc' hsame, ← hwas] at heq
      exact absurd heq hother

end Workspace

end MathCanvas
