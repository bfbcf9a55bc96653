import MathCanvas.Document.Basic
import MathCanvas.Proofs.Order

/-!
# The order of regions

Regions in order stand outer ones first, so that the innermost of those around a position is the
last of them in the list (`Region.latest_eq_getLast?`). The parent of a region is the last one before
it that contains its start, unless a later region starts at the same place: then it has none
(`Region.parentOf_eq`).
-/

namespace MathCanvas

namespace Region

variable {a b r : Region} {regions : List Region}

/-! ### The order -/

theorem notAfter_iff :
    a.notAfter b = true ↔ a.start < b.start ∨ a.start.same b.start = true ∧ b.stop ≤ a.stop := by
  simp [notAfter]

theorem notAfter_total (a b : Region) : a.notAfter b = true ∨ b.notAfter a = true := by
  simp only [notAfter_iff, Position.same_iff, Position.lt_def, Position.le_def]
  omega

theorem notAfter_trans (a b c : Region) (hab : a.notAfter b = true) (hbc : b.notAfter c = true) :
    a.notAfter c = true := by
  simp only [notAfter_iff, Position.same_iff, Position.lt_def, Position.le_def] at *
  omega

theorem start_le_of_notAfter (h : a.notAfter b = true) : a.start ≤ b.start := by
  rcases notAfter_iff.mp h with h | ⟨h, -⟩
  · exact Position.le_of_lt h
  · exact (Position.same_iff.mp h).1

theorem contains_iff {p : Position} : r.contains p = true ↔ r.start ≤ p ∧ p < r.stop := by
  simp [contains, Span.contains]

/-- Regions stand in order, and each ends after it starts. -/
structure InOrder (regions : List Region) : Prop where
  sorted : regions.Pairwise fun a b => a.notAfter b = true
  proper : ∀ r ∈ regions, r.start < r.stop

theorem inOrder_nil : InOrder [] := ⟨.nil, by simp⟩

/-- A region that comes later contains the start of another one only if it starts there too. -/
theorem contains_start_iff (hab : a.notAfter b = true) (hproper : b.start < b.stop) :
    b.contains a.start = true ↔ b.start.same a.start = true := by
  have hle := start_le_of_notAfter hab
  rw [contains_iff, Position.same_iff]
  constructor
  · exact fun h => ⟨h.1, hle⟩
  · exact fun h => ⟨h.1, Position.lt_of_le_lt hle hproper⟩

/-! ### The latest of some regions -/

theorem latest_eq_getLast? {candidates : List (Region × Nat)}
    (h : candidates.Pairwise fun x y => x.1.notAfter y.1 = true) :
    latest candidates = candidates.getLast? := by
  induction candidates with
  | nil => rfl
  | cons x rest ih =>
    obtain ⟨hx, hrest⟩ := List.pairwise_cons.mp h
    cases rest with
    | nil => rfl
    | cons y rest =>
      have hlater : latest (x :: y :: rest) = latest (y :: rest) := by
        simp only [latest, List.foldl_cons, hx y List.mem_cons_self, if_true]
      rw [hlater, ih hrest, List.getLast?_cons_cons]

/-- The last of the regions before an index that contain a position. -/
def enclosing? (regions : List Region) (index : Nat) (p : Position) : Option Region :=
  ((regions.take index).filter (·.contains p)).getLast?

/-- Whether a region behind an index starts at a position. -/
def startsLater (regions : List Region) (index : Nat) (p : Position) : Bool :=
  (regions.drop (index + 1)).any (·.start.same p)

theorem mem_of_enclosing? {index : Nat} {p : Position} (h : enclosing? regions index p = some a) :
    a ∈ regions.take index :=
  List.mem_of_mem_filter (List.mem_of_getLast? h)

section Parent

variable {before behind : List Region}

/-- The others around the start of a region: those before it in order, and those behind it. -/
theorem others_append (hdistinct : ((before ++ r :: behind).map (·.id)).Nodup) :
    ((before ++ r :: behind).zipIdx.filter fun entry =>
      entry.1.id != r.id && entry.1.contains r.start)
      = before.zipIdx.filter (fun entry => entry.1.contains r.start)
        ++ (behind.zipIdx (before.length + 1)).filter fun entry => entry.1.contains r.start := by
  rw [List.map_append, List.map_cons, List.nodup_append, List.nodup_cons] at hdistinct
  obtain ⟨-, ⟨hbehind, -⟩, hbefore⟩ := hdistinct
  rw [List.zipIdx_append, List.filter_append, List.zipIdx_cons, Nat.zero_add]
  congr 1
  · refine List.filter_congr fun entry hentry => ?_
    have hne : entry.1.id ≠ r.id :=
      hbefore _ (List.mem_map_of_mem (List.fst_mem_of_mem_zipIdx hentry)) _ List.mem_cons_self
    simp [hne]
  · rw [List.filter_cons_of_neg (by simp)]
    refine List.filter_congr fun entry hentry => ?_
    have hne : entry.1.id ≠ r.id := fun heq =>
      hbehind (heq ▸ List.mem_map_of_mem (List.fst_mem_of_mem_zipIdx hentry))
    simp [hne]

theorem pairwise_zipIdx (h : InOrder regions) (k : Nat) :
    (regions.zipIdx k).Pairwise fun x y => x.1.notAfter y.1 = true := by
  have hmap : ((regions.zipIdx k).map (·.1)).Pairwise fun a b => a.notAfter b = true := by
    rw [List.zipIdx_map_fst]
    exact h.sorted
  exact List.pairwise_map.mp hmap

/-- The last region before another one that contains its start, with its index. -/
theorem getLast?_filter_zipIdx (p : Position) :
    ((before.zipIdx.filter fun entry => entry.1.contains p).getLast?).map (·.1)
      = (before.filter (·.contains p)).getLast? := by
  have hmap : before.filter (·.contains p)
      = (before.zipIdx.filter fun entry => entry.1.contains p).map (·.1) := by
    conv_lhs => rw [← List.zipIdx_map_fst 0 before, List.filter_map]
    rfl
  rw [hmap, List.getLast?_map]

theorem parentOf_append (h : InOrder (before ++ r :: behind))
    (hdistinct : ((before ++ r :: behind).map (·.id)).Nodup) :
    parentOf (before ++ r :: behind) r before.length =
      if behind.any (·.start.same r.start) then none
      else ((before.filter (·.contains r.start)).getLast?).map (·.id) := by
  have hlater : ∀ b ∈ behind, b.contains r.start = true ↔ b.start.same r.start = true := by
    intro b hb
    have hsorted := h.sorted
    rw [List.pairwise_append, List.pairwise_cons] at hsorted
    exact contains_start_iff (hsorted.2.1.1 b hb) (h.proper b (by simp [hb]))
  unfold parentOf
  simp only
  rw [latest_eq_getLast? ((pairwise_zipIdx h 0).filter _), others_append hdistinct,
    List.getLast?_append]
  by_cases hstarts : behind.any (·.start.same r.start) = true
  · -- one that starts there too is the innermost of all, and comes later
    rw [if_pos hstarts]
    obtain ⟨b, hb, hsame⟩ := List.any_eq_true.mp hstarts
    obtain ⟨j, hj⟩ := List.mem_iff_getElem?.mp hb
    have hmem : (b, before.length + 1 + j) ∈ behind.zipIdx (before.length + 1) := by
      rw [List.mk_mem_zipIdx_iff_le_and_getElem?_sub]
      exact ⟨Nat.le_add_right _ _, by rwa [Nat.add_sub_cancel_left]⟩
    have hne : (behind.zipIdx (before.length + 1)).filter
        (fun entry => entry.1.contains r.start) ≠ [] :=
      List.ne_nil_of_mem (List.mem_filter.mpr ⟨hmem, (hlater b hb).mpr hsame⟩)
    obtain ⟨last, hlast⟩ : ∃ last, ((behind.zipIdx (before.length + 1)).filter
        fun entry => entry.1.contains r.start).getLast? = some last :=
      ⟨_, List.getLast?_eq_some_getLast hne⟩
    have hindex : before.length + 1 ≤ last.2 :=
      List.le_snd_of_mem_zipIdx (List.mem_of_mem_filter (List.mem_of_getLast? hlast))
    have hnot : ¬last.2 < before.length := by omega
    rw [hlast, Option.some_or, Option.filter_some, if_neg (by simpa using hnot)]
    rfl
  · rw [if_neg hstarts]
    have hnone : (behind.zipIdx (before.length + 1)).filter
        (fun entry => entry.1.contains r.start) = [] := by
      rw [List.filter_eq_nil_iff]
      intro entry hentry hcontains
      have hmem : entry.1 ∈ behind := List.fst_mem_of_mem_zipIdx hentry
      exact hstarts (List.any_eq_true.mpr ⟨entry.1, hmem, (hlater _ hmem).mp hcontains⟩)
    rw [hnone, List.getLast?_nil, Option.none_or, ← getLast?_filter_zipIdx, Option.map_map]
    cases hlast : (before.zipIdx.filter fun entry => entry.1.contains r.start).getLast? with
    | none => rfl
    | some entry =>
      have hlt : entry.2 < before.length := by
        have hmem := List.snd_lt_of_mem_zipIdx (List.mem_of_mem_filter (List.mem_of_getLast? hlast))
        omega
      rw [Option.filter_some, if_pos (by simpa using hlt)]
      rfl

end Parent

/-- The parent of a region is the innermost one around its start, but if another region behind it
starts at the same place, it has no parent. -/
theorem parentOf_eq (h : InOrder regions) (hdistinct : (regions.map (·.id)).Nodup) {index : Nat}
    (hr : regions[index]? = some r) :
    parentOf regions r index =
      if startsLater regions index r.start then none
      else (enclosing? regions index r.start).map (·.id) := by
  obtain ⟨hlt, hget⟩ := List.getElem?_eq_some_iff.mp hr
  have hsplit : regions = regions.take index ++ r :: regions.drop (index + 1) := by
    rw [← hget, List.getElem_cons_drop, List.take_append_drop]
  have hlength : (regions.take index).length = index := by
    rw [List.length_take]
    omega
  rw [hsplit] at h hdistinct
  have hparent := parentOf_append h hdistinct
  rwa [hlength, ← hsplit] at hparent

end Region

end MathCanvas
