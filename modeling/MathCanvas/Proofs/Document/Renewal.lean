import MathCanvas.Proofs.Document.Regions

/-!
# Which regions get new scopes

When a region comes or goes, others get a new scope: those that get another parent, and those whose
parent gets a new scope. The regions are settled in one pass from the outer ones to the inner ones, and
`Document.Renewal` says that the pass has found all of them so far. At its end, a region has kept its
scope if and only if the chain of the regions around it is what it was
(`Document.Nested.scope_eq_iff`).
-/

namespace MathCanvas

namespace Region

variable {r p : Region} {regions outer inner : List Region} {parent : Option RegionId}

/-- The chain of regions that begins with a parent and goes on with the parent of that one, among
regions that are given from the inner ones to the outer ones. -/
def chain : List Region → Option RegionId → List RegionId
  | [], _ => []
  | r :: outer, parent =>
    if parent = some r.id then r.id :: chain outer r.parent else chain outer parent

/-- The regions around a region of some that stand in order, the innermost first. -/
def lineage (regions : List Region) (r : Region) : List RegionId := chain regions.reverse r.parent

@[simp] theorem chain_none (outer : List Region) : chain outer none = [] := by
  induction outer with
  | nil => rfl
  | cons r outer ih => rw [chain, if_neg (by rintro ⟨⟩), ih]

/-- Regions that are no parents of others are passed over. -/
theorem chain_append (h : ∀ id, parent = some id → id ∉ inner.map (·.id)) :
    chain (inner ++ outer) parent = chain outer parent := by
  induction inner with
  | nil => rfl
  | cons r inner ih =>
    rw [List.cons_append, chain, if_neg]
    · exact ih fun id hid hmem => h id hid (List.mem_cons_of_mem _ hmem)
    · exact fun heq => h r.id heq List.mem_cons_self

/-- The parents of regions stand before them. -/
def OutwardBound (regions : List Region) : Prop :=
  ∀ (i : Nat) (r : Region), regions[i]? = some r → ∀ id, r.parent = some id →
    id ∈ (regions.take i).map (·.id)

theorem eq_take_append {l : List Region} {i : Nat} (hr : l[i]? = some r) :
    l = l.take i ++ r :: l.drop (i + 1) := by
  obtain ⟨hi, rfl⟩ := List.getElem?_eq_some_iff.mp hr
  rw [List.getElem_cons_drop, List.take_append_drop]

section Lineage

variable (hdistinct : (regions.map (·.id)).Nodup) (houtward : OutwardBound regions) {i : Nat}
include hdistinct houtward

/-- The chain around a region is found among the regions before it. -/
theorem lineage_eq_chain (hr : regions[i]? = some r) :
    lineage regions r = chain (regions.take i).reverse r.parent := by
  have hregions := eq_take_append hr
  rw [lineage, congrArg List.reverse hregions, List.reverse_append, List.reverse_cons]
  refine chain_append fun id hid hmem => ?_
  have hbefore := houtward i r hr id hid
  rw [hregions, List.map_append, List.nodup_append] at hdistinct
  refine hdistinct.2.2 id hbefore id ?_ rfl
  simpa [or_comm] using hmem

/-- It goes on with the chain around the parent. -/
theorem lineage_eq_cons (hr : regions[i]? = some r) {id : RegionId} (hparent : r.parent = some id) :
    ∃ j < i, ∃ p, regions[j]? = some p ∧ p.id = id ∧
      lineage regions r = id :: lineage regions p := by
  obtain ⟨p, hp, hid⟩ := List.mem_map.mp (houtward i r hr id hparent)
  obtain ⟨j, hj⟩ := List.mem_iff_getElem?.mp hp
  have hji : j < i := by
    by_contra hle
    rw [List.getElem?_take_eq_none (Nat.not_lt.mp hle)] at hj
    cases hj
  have hj' : regions[j]? = some p := by rwa [List.getElem?_take_of_lt hji] at hj
  refine ⟨j, hji, p, hj', hid, ?_⟩
  have hbefore := eq_take_append hj
  rw [List.take_take, Nat.min_eq_left hji.le] at hbefore
  have hpassed : ∀ id', some id = some id' →
      id' ∉ ((regions.take i).drop (j + 1)).reverse.map (·.id) := by
    rintro _ ⟨⟩ hmem
    have hnodup := hdistinct.sublist ((List.take_sublist i regions).map _)
    rw [hbefore, List.map_append, List.map_cons, List.nodup_append, List.nodup_cons, hid] at hnodup
    exact hnodup.2.1.1 (by simpa using hmem)
  rw [lineage_eq_chain hdistinct houtward hr, lineage_eq_chain hdistinct houtward hj', hparent,
    congrArg List.reverse hbefore, List.reverse_append, List.reverse_cons, List.append_assoc,
    chain_append hpassed, List.singleton_append, chain, if_pos (congrArg some hid.symm), hid]

/-- The innermost region around a region is its parent. -/
theorem head?_lineage (hr : regions[i]? = some r) : (lineage regions r).head? = r.parent := by
  cases hparent : r.parent with
  | none => rw [lineage, hparent, chain_none, List.head?_nil]
  | some id =>
    obtain ⟨_, _, _, _, _, hlineage⟩ := lineage_eq_cons hdistinct houtward hr hparent
    rw [hlineage, List.head?_cons]

end Lineage

end Region

namespace Document

open Region

variable {d : Document} {w : Workspace} {l old done rest : List Region} {created : Option RegionId}
  {s : Settling} {r before : Region} {settings : DocumentSettings} {backend : Backend}

/-- A progress in which just those regions have new scopes that have to, and these scopes were not
there before. -/
structure Renewal (w : Workspace) (l old : List Region) (created : Option RegionId)
    (done : List Region) (s : Settling) : Prop extends Progress w l created done s where
  nextId : w.tree.nextId ≤ s.tree.nextId
  fresh : ∀ r ∈ s.settled, r.id ∈ s.rebuilt → w.tree.nextId ≤ r.scope
  settled : ∀ id ∈ s.rebuilt, id ∈ s.settled.map (·.id)
  rebuilt_iff : ∀ r ∈ s.settled, created ≠ some r.id → ∀ before ∈ old, before.id = r.id →
    (r.id ∈ s.rebuilt ↔ r.parent ≠ before.parent ∨ ∃ id ∈ s.rebuilt, r.parent = some id)

namespace Renewal

section Next

variable (h : Renewal w l old created done s) (hdistinct : (l.map (·.id)).Nodup)
  (hl : l = done ++ r :: rest)
include h hdistinct hl

/-- The region that is next is not settled yet. -/
theorem not_settled : r.id ∉ s.settled.map (·.id) := by
  rw [map_id_eq h.places]
  rw [hl, List.map_append, List.map_cons] at hdistinct
  exact fun hmem => (List.nodup_append.mp hdistinct).2.2 _ hmem _ List.mem_cons_self rfl

/-- What is settled before stays so, whether the next region gets a new scope or not. -/
theorem rebuilt_iff_cons {x : Region} (hx : x ∈ s.settled) (hcreated : created ≠ some x.id)
    (hbefore : before ∈ old) (hid : before.id = x.id) : x.id ∈ r.id :: s.rebuilt ↔
      x.parent ≠ before.parent ∨ ∃ id ∈ r.id :: s.rebuilt, x.parent = some id := by
  have hnot := h.not_settled hdistinct hl
  have hself : x.id ≠ r.id := fun heq => hnot (heq ▸ List.mem_map_of_mem hx)
  have hparent : x.parent ≠ some r.id := fun heq => hnot (h.known x hx r.id heq)
  rw [List.mem_cons, or_iff_right hself, h.rebuilt_iff x hx hcreated before hbefore hid]
  simp [hparent]

theorem settleRegion (horder : InOrder l) (hroot : w.tree.get? ScopeTree.rootId ≠ none)
    (hfrom : ∀ r ∈ l, created = some r.id ∨ r ∈ old) (holdIds : (old.map (·.id)).Nodup)
    (hold : ∀ r ∈ old, ∃ further, w.tree.shape? r.scope =
      some (r.closed, r.start, scopeOf old r.parent :: further)) :
    Renewal w l old created (done ++ [r]) (settleRegion l created s r done.length) := by
  have hprogress := h.toProgress.settleRegion horder hdistinct hl hroot hfrom holdIds hold
  have hnot := h.not_settled hdistinct hl
  have hnew : r.id ∉ s.rebuilt := fun hmem => hnot (h.settled _ hmem)
  have hsame : created ≠ some r.id → ∀ before ∈ old, before.id = r.id → before = r :=
    fun hcreated before hbefore hid =>
      List.inj_on_of_nodup_map holdIds hbefore
        ((hfrom r (by simp [hl])).resolve_left hcreated) hid
  unfold Document.settleRegion at hprogress ⊢
  simp only at hprogress ⊢
  split at hprogress
  · rename_i hcondition
    rw [if_pos hcondition]
    refine ⟨hprogress, Nat.le_succ_of_le h.nextId, fun x hx hmem => ?_, fun id hmem => ?_,
      fun x hx hcreated before hbefore hid => ?_⟩
    · rcases List.mem_append.mp hx with hx | hx
      · refine h.fresh x hx ((List.mem_cons.mp hmem).resolve_left fun heq => ?_)
        exact hnot (heq ▸ List.mem_map_of_mem hx)
      · rw [List.mem_singleton.mp hx]
        exact h.nextId
    · rw [List.map_append, List.mem_append]
      rcases List.mem_cons.mp hmem with rfl | hmem
      · exact .inr List.mem_cons_self
      · exact .inl (h.settled _ hmem)
    · rcases List.mem_append.mp hx with hx | hx
      · exact h.rebuilt_iff_cons hdistinct hl hx hcreated hbefore hid
      · rw [List.mem_singleton.mp hx] at hcreated hid ⊢
        refine iff_of_true List.mem_cons_self ?_
        rw [hsame hcreated before hbefore hid]
        simp only [Bool.or_eq_true, beq_iff_eq, hcreated, false_or, bne_iff_ne] at hcondition
        refine hcondition.imp Ne.symm fun hany => ?_
        obtain ⟨id, hid, hmem⟩ := (Option.any_eq_true ..).mp hany
        exact ⟨id, List.mem_cons_of_mem _ (List.contains_iff_mem.mp hmem), hid⟩
  · rename_i hcondition
    rw [if_neg hcondition]
    simp only [Bool.or_eq_true, not_or, bne_iff_ne, ne_eq, not_not, beq_iff_eq] at hcondition
    obtain ⟨⟨hcreated, hparent⟩, hany⟩ := hcondition
    refine ⟨hprogress, h.nextId, fun x hx hmem => ?_, fun id hmem => ?_,
      fun x hx hother before hbefore hid => ?_⟩
    · rcases List.mem_append.mp hx with hx | hx
      · exact h.fresh x hx hmem
      · rw [List.mem_singleton.mp hx] at hmem
        exact absurd hmem hnew
    · rw [List.map_append]
      exact List.mem_append_left _ (h.settled id hmem)
    · rcases List.mem_append.mp hx with hx | hx
      · exact h.rebuilt_iff x hx hother before hbefore hid
      · rw [List.mem_singleton.mp hx] at hid ⊢
        refine iff_of_false hnew ?_
        rw [hsame hcreated before hbefore hid]
        rintro (hne | ⟨id, hmem, hid⟩)
        · exact hne rfl
        · refine hany ((Option.any_eq_true ..).mpr ⟨id, ?_, List.contains_iff_mem.mpr hmem⟩)
          rw [← hparent, hid]

end Next

/-- The pass over all regions. -/
theorem settleAll (horder : InOrder l) (hdistinct : (l.map (·.id)).Nodup)
    (hroot : w.tree.get? ScopeTree.rootId ≠ none)
    (hfrom : ∀ r ∈ l, created = some r.id ∨ r ∈ old) (holdIds : (old.map (·.id)).Nodup)
    (hold : ∀ r ∈ old, ∃ further, w.tree.shape? r.scope =
      some (r.closed, r.start, scopeOf old r.parent :: further)) :
    ∀ (rest done : List Region) (s : Settling), l = done ++ rest → Renewal w l old created done s →
      Renewal w l old created l ((rest.zipIdx done.length).foldl
        (fun s (r, index) => Document.settleRegion l created s r index) s) := by
  intro rest
  induction rest with
  | nil =>
    intro done s hl h
    rw [List.append_nil] at hl
    exact hl ▸ h
  | cons r rest ih =>
    intro done s hl h
    rw [List.zipIdx_cons, List.foldl_cons]
    have hnext := ih (done ++ [r]) _ (by rw [hl, List.append_assoc, List.singleton_append])
      (h.settleRegion hdistinct hl horder hroot hfrom holdIds hold)
    rwa [List.length_append, List.length_singleton] at hnext

end Renewal

/-- The parent of a region of a document stands before it. -/
theorem Nested.outwardBound (h : d.Nested) : OutwardBound d.regions := by
  intro i r hr id hid
  rw [h.parent i r hr, parentOf_eq h.order h.distinct hr] at hid
  split at hid
  · cases hid
  · obtain ⟨p, hp, rfl⟩ := Option.map_eq_some_iff.mp hid
    exact List.mem_map_of_mem (mem_of_enclosing? hp)

section Rehome

variable (h : d.Nested) (hquiet : d.workspace.agenda = []) {regions : List Region}
  (hadmits : d.Admits regions created)
include h hquiet hadmits

theorem Nested.renewal :
    Renewal d.workspace (sortBy Region.notAfter regions) d.regions created
      (sortBy Region.notAfter regions) (d.settling regions created) := by
  have hcoherent : d.workspace.Coherent fun _ _ => False := by
    cases h.tends.ready with
    | resting hcoherent => exact hcoherent
    | telling hagenda =>
      rw [hagenda] at hquiet
      cases hquiet
  exact Renewal.settleAll hadmits.inOrder hadmits.nodup h.root
    (fun r hr => hadmits.old r (mem_sortBy.mp hr)) h.distinct h.around _ [] ⟨d.workspace.tree, [], []⟩
    rfl ⟨⟨hcoherent, fun _ _ => rfl, fun _ _ => rfl, rfl, by simp, by simp, by simp, by simp⟩,
      Nat.le_refl _, by simp, by simp, by simp⟩

/-- A region without a new scope is as it was. -/
theorem Nested.eq_of_not_rebuilt {r' : Region} (hr' : r' ∈ (d.settling regions created).settled)
    (hr : r ∈ d.regions) (hid : r'.id = r.id) (hnot : r'.id ∉ (d.settling regions created).rebuilt) :
    r' = r := by
  obtain ⟨hmem, hcreated⟩ := (h.renewal hquiet hadmits).unchanged r' hr' hnot
  exact List.inj_on_of_nodup_map h.distinct
    ((hadmits.old r' (mem_sortBy.mp hmem)).resolve_left hcreated) hr hid

variable (hnew : ∀ r ∈ d.regions, created ≠ some r.id)
include hnew

/-- The regions with new scopes are those around which other regions are than before. The induction is
on the place in the order, since parents stand before the regions in them. -/
theorem Nested.rebuilt_iff (i : Nat) : ∀ r' ∈ (d.settling regions created).settled[i]?,
    ∀ r ∈ d.regions, r'.id = r.id → (r'.id ∉ (d.settling regions created).rebuilt ↔
      lineage (d.settling regions created).settled r' = lineage d.regions r) := by
  have hrenewal := h.renewal hquiet hadmits
  have hafter := h.withRegions hquiet hadmits
  have hdistinct : ((d.settling regions created).settled.map (·.id)).Nodup := hafter.distinct
  have houtward : OutwardBound (d.settling regions created).settled := hafter.outwardBound
  induction i using Nat.strong_induction_on with
  | _ i ih =>
    intro r' hr' r hr hid
    have hmem' := List.mem_of_getElem? hr'
    obtain ⟨k, hk⟩ := List.mem_iff_getElem?.mp hr
    have hhead' := head?_lineage hdistinct houtward hr'
    have hhead := head?_lineage h.distinct h.outwardBound hk
    -- the parent, if it is the same one as before
    have hparent : ∀ id, r'.parent = some id → r.parent = some id →
        (id ∉ (d.settling regions created).rebuilt ↔
          lineage (d.settling regions created).settled r' = lineage d.regions r) := by
      intro id hparent' hparent
      obtain ⟨j, hji, p', hp', rfl, hlineage'⟩ := lineage_eq_cons hdistinct houtward hr' hparent'
      obtain ⟨_, _, p, hp, hid', hlineage⟩ :=
        lineage_eq_cons h.distinct h.outwardBound hk hparent
      rw [hlineage', hlineage, List.cons_inj_right]
      exact ih j hji p' hp' p (List.mem_of_getElem? hp) hid'.symm
    constructor
    · intro hnot
      have hsame := h.eq_of_not_rebuilt hquiet hadmits hmem' hr hid hnot
      cases hp : r'.parent with
      | none =>
        rw [lineage, lineage, hp, ← hsame, hp, chain_none, chain_none]
      | some id =>
        refine (hparent id hp (hsame ▸ hp)).mp fun hid' => hnot ?_
        exact (hrenewal.rebuilt_iff r' hmem' (hid ▸ hnew r hr) r hr hid.symm).mpr (.inr ⟨id, hid', hp⟩)
    · intro heq hmem
      have hsame : r'.parent = r.parent := by rw [← hhead', heq, hhead]
      rcases (hrenewal.rebuilt_iff r' hmem' (hid ▸ hnew r hr) r hr hid.symm).mp hmem with
        hne | ⟨id, hid', hp⟩
      · exact hne hsame
      · exact (hparent id hp (hsame ▸ hp)).mpr heq hid'

end Rehome

end Document

end MathCanvas
