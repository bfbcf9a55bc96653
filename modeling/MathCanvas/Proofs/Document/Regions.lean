import MathCanvas.Proofs.Document.Nesting
import MathCanvas.Proofs.Document.Run
import MathCanvas.Proofs.Scope.Sequence

/-!
# The scopes of regions

After every edit, the regions of a document stand in order, each has the parent that its place
gives it, and the scope of its parent is around its own scope (`Document.Nested`). The regions are
settled one after the other (`Document.Progress`): a region that keeps its scope has the parent that
it had, whose scope is still the same.

What the parent is, is said by `Document.Reached.ancestors_head?_eq`: the innermost region around the start
of the region, unless another region starts there behind it in the order.
-/

namespace MathCanvas

namespace Region

variable {r r' : Region} {regions regions' : List Region} {id : RegionId}

/-- What the order of regions depends on. -/
def place (r : Region) : RegionId × Position × Position := (r.id, r.start, r.stop)

section Places

variable (hplaces : regions'.map place = regions.map place)

include hplaces

theorem map_id_eq : regions'.map (·.id) = regions.map (·.id) := by
  have hmap : ∀ l : List Region, l.map (·.id) = (l.map place).map (·.1) := by simp [place]
  rw [hmap, hplaces, hmap]

theorem InOrder.of_places (h : InOrder regions) : InOrder regions' := by
  have hsorted : ∀ l : List Region, (l.Pairwise fun a b => a.notAfter b = true) ↔
      (l.map place).Pairwise fun x y =>
        x.2.1 < y.2.1 ∨ x.2.1.same y.2.1 = true ∧ y.2.2 ≤ x.2.2 := by
    simp [List.pairwise_map, place, notAfter_iff]
  have hproper : ∀ l : List Region, (∀ r ∈ l, r.start < r.stop) ↔
      ∀ x ∈ l.map place, x.2.1 < x.2.2 := by
    simp [place]
  refine ⟨?_, ?_⟩
  · rw [hsorted, hplaces, ← hsorted]
    exact h.sorted
  · rw [hproper, hplaces, ← hproper]
    exact h.proper

/-- The parent of a region depends on the places of the regions alone. -/
theorem parentOf_congr (h : InOrder regions) (hdistinct : (regions.map (·.id)).Nodup) {index : Nat}
    (hr : regions[index]? = some r) (hr' : regions'[index]? = some r') :
    parentOf regions' r' index = parentOf regions r index := by
  have hlater : ∀ (l : List Region) (p : Position), startsLater l index p =
      ((l.map place).drop (index + 1)).any (·.2.1.same p) := by
    intro l p
    rw [startsLater, ← List.map_drop, List.any_map]
    rfl
  have hinner : ∀ (l : List Region) (p : Position), (enclosing? l index p).map (·.id) =
      ((((l.map place).take index).filter fun x =>
        decide (x.2.1 ≤ p) && decide (p < x.2.2)).getLast?).map (·.1) := by
    intro l p
    rw [enclosing?, ← List.map_take, List.filter_map, List.getLast?_map, Option.map_map]
    rfl
  have hplace : r'.place = r.place := by
    have hget := congrArg (·[index]?) hplaces
    simpa [hr, hr'] using hget
  have hstart : r'.start = r.start := congrArg (·.2.1) hplace
  rw [parentOf_eq (h.of_places hplaces) (map_id_eq hplaces ▸ hdistinct) hr', parentOf_eq h hdistinct hr,
    hstart, hlater, hlater, hinner, hinner, hplaces]

end Places

/-! ### The scope of a parent -/

theorem scopeOf_of_mem (hdistinct : (regions.map (·.id)).Nodup) (hr : r ∈ regions) :
    scopeOf regions (some r.id) = r.scope := by
  have hfind : regions.find? (·.id == r.id) = some r := by
    induction regions with
    | nil => simp at hr
    | cons a rest ih =>
      rw [List.map_cons, List.nodup_cons] at hdistinct
      rcases List.mem_cons.mp hr with rfl | hr
      · simp
      · have hne : a.id ≠ r.id := fun heq => hdistinct.1 (heq ▸ List.mem_map_of_mem hr)
        rw [List.find?_cons_of_neg (by simpa using hne)]
        exact ih hdistinct.2 hr
  rw [scopeOf, Option.bind_some, hfind]

theorem scopeOf_append {more : List Region} {parent : Option RegionId}
    (hknown : ∀ p, parent = some p → p ∈ regions.map (·.id)) :
    scopeOf (regions ++ more) parent = scopeOf regions parent := by
  cases parent with
  | none => rfl
  | some p =>
    obtain ⟨a, ha, hid⟩ := List.mem_map.mp (hknown p rfl)
    have hsome : (regions.find? (·.id == p)).isSome := by
      rw [List.find?_isSome]
      exact ⟨a, ha, by simpa using hid⟩
    obtain ⟨b, hb⟩ := Option.isSome_iff_exists.mp hsome
    rw [scopeOf, scopeOf, Option.bind_some, Option.bind_some, List.find?_append, hb, Option.some_or]

end Region

namespace ScopeTree

variable {t : ScopeTree} {parent q : ScopeId}

/-- A new scope stands in its parent; all others stay where they are. -/
theorem shape?_child (hparent : t.get? parent ≠ none) (name : String) (start : Position)
    (closed : Bool) :
    ∃ further, ∀ q, (t.child parent name start closed).2.shape? q =
      if t.nextId = q then some (closed, start, parent :: further) else t.shape? q := by
  obtain ⟨around, haround⟩ := Option.ne_none_iff_exists'.mp hparent
  refine ⟨around.ancestors, fun q => ?_⟩
  rw [shape?, get?_child]
  split
  · rw [Option.map_some, inside, haround]
  · rfl

end ScopeTree

namespace Document

open Region

variable {d : Document} {settings : DocumentSettings} {backend : Backend}
  {may : Document → Edit → Prop}

/-! ### Settling the regions -/

/-- The state after some regions are settled, given the workspace before that. -/
structure Progress (w : Workspace) (l : List Region) (created : Option RegionId)
    (done : List Region) (s : Settling) : Prop where
  coherent : ({ w with tree := s.tree } : Workspace).Coherent fun _ _ => False
  kept : ∀ q, w.tree.get? q ≠ none → s.tree.shape? q = w.tree.shape? q
  sequence : ∀ q name, s.tree.sequence q name = w.tree.sequence q name
  places : s.settled.map place = done.map place
  parent : ∀ i r, s.settled[i]? = some r → r.parent = parentOf l r i
  known : ∀ r ∈ s.settled, ∀ p, r.parent = some p → p ∈ s.settled.map (·.id)
  around : ∀ r ∈ s.settled, ∃ further, s.tree.shape? r.scope =
    some (r.closed, r.start, scopeOf s.settled r.parent :: further)
  /-- A region without a new scope is as it was. -/
  unchanged : ∀ r ∈ s.settled, r.id ∉ s.rebuilt → r ∈ done ∧ created ≠ some r.id

namespace Progress

variable {w : Workspace} {l old done rest : List Region} {created : Option RegionId} {s : Settling}
  {r : Region}

theorem length_eq (h : Progress w l created done s) : s.settled.length = done.length := by
  have hlength := congrArg List.length h.places
  rwa [List.length_map, List.length_map] at hlength

/-- The scope that is going to be around a region is there. -/
theorem get?_scopeOf (h : Progress w l created done s) (hroot : w.tree.get? ScopeTree.rootId ≠ none)
    (parent : Option RegionId) : s.tree.get? (scopeOf s.settled parent) ≠ none := by
  unfold scopeOf
  split
  · rename_i q hq
    obtain ⟨p, -, hfind⟩ := Option.bind_eq_some_iff.mp hq
    obtain ⟨further, hshape⟩ := h.around q (List.mem_of_find?_eq_some hfind)
    rw [Ne, ← ScopeTree.shape?_eq_none_iff, hshape]
    simp
  · rw [Ne, ← ScopeTree.shape?_eq_none_iff, h.kept _ hroot, ScopeTree.shape?_eq_none_iff]
    exact hroot

/-- The parent of the next region is settled. -/
theorem parent_mem (h : Progress w l created done s) (horder : InOrder l)
    (hdistinct : (l.map (·.id)).Nodup) (hl : l = done ++ r :: rest) {p : RegionId}
    (hp : parentOf l r done.length = some p) : p ∈ s.settled.map (·.id) := by
  have hr : l[done.length]? = some r := by simp [hl]
  rw [parentOf_eq horder hdistinct hr] at hp
  split at hp
  · cases hp
  · obtain ⟨q, hq, rfl⟩ := Option.map_eq_some_iff.mp hp
    have hmem := mem_of_enclosing? hq
    rw [hl, List.take_left] at hmem
    rw [map_id_eq h.places]
    exact List.mem_map_of_mem hmem

section Next

variable (h : Progress w l created done s) (horder : InOrder l) (hdistinct : (l.map (·.id)).Nodup)
  (hl : l = done ++ r :: rest)

include h horder hdistinct hl

/-- One more region is settled with the parent that its place gives it. -/
theorem extend {settled : Region} {tree : ScopeTree} {rebuilt : List RegionId}
    (hplace : settled.place = r.place) (hparent : settled.parent = parentOf l r done.length)
    (hcoherent : ({ w with tree } : Workspace).Coherent fun _ _ => False)
    (hstays : ∀ q, s.tree.get? q ≠ none → tree.shape? q = s.tree.shape? q)
    (hsequence : ∀ q name, tree.sequence q name = s.tree.sequence q name)
    (haround : ∃ further, tree.shape? settled.scope =
      some (settled.closed, settled.start, scopeOf s.settled settled.parent :: further))
    (hrebuilt : ∀ id ∈ s.rebuilt, id ∈ rebuilt)
    (hunchanged : settled.id ∉ rebuilt → settled = r ∧ created ≠ some r.id) :
    Progress w l created (done ++ [r]) ⟨tree, s.settled ++ [settled], rebuilt⟩ where
  coherent := hcoherent
  kept q hq := by
    have hold := h.kept q hq
    rw [← hold]
    refine hstays q ?_
    rw [Ne, ← ScopeTree.shape?_eq_none_iff, hold, ScopeTree.shape?_eq_none_iff]
    exact hq
  sequence q name := (hsequence q name).trans (h.sequence q name)
  places := by
    rw [List.map_append, List.map_append, h.places]
    simp [hplace]
  parent i x hx := by
    rw [List.getElem?_append] at hx
    split at hx
    · exact h.parent i x hx
    · rename_i hi
      have hlength := h.length_eq
      have hi' : i = done.length := by
        have hlt := (List.getElem?_eq_some_iff.mp hx).1
        rw [List.length_singleton] at hlt
        omega
      subst hi'
      rw [hlength, Nat.sub_self] at hx
      cases hx
      have hid : settled.id = r.id := congrArg (·.1) hplace
      have hstart : settled.start = r.start := congrArg (·.2.1) hplace
      rw [hparent, parentOf, parentOf, hid, hstart]
  known x hx p hp := by
    rw [List.map_append]
    refine List.mem_append_left _ ?_
    rcases List.mem_append.mp hx with hx | hx
    · exact h.known x hx p hp
    · rw [List.mem_singleton.mp hx, hparent] at hp
      exact h.parent_mem horder hdistinct hl hp
  around x hx := by
    rcases List.mem_append.mp hx with hx | hx
    · obtain ⟨further, hshape⟩ := h.around x hx
      refine ⟨further, ?_⟩
      rw [scopeOf_append (h.known x hx), ← hshape]
      refine hstays x.scope ?_
      rw [Ne, ← ScopeTree.shape?_eq_none_iff, hshape]
      simp
    · cases List.mem_singleton.mp hx
      rw [scopeOf_append fun p hp => h.parent_mem horder hdistinct hl (hparent ▸ hp)]
      exact haround
  unchanged x hx hnot := by
    rcases List.mem_append.mp hx with hx | hx
    · obtain ⟨hdone, hcreated⟩ := h.unchanged x hx fun hmem => hnot (hrebuilt _ hmem)
      exact ⟨List.mem_append_left _ hdone, hcreated⟩
    · cases List.mem_singleton.mp hx
      obtain ⟨heq, hcreated⟩ := hunchanged hnot
      rw [heq]
      exact ⟨List.mem_append_right _ (List.mem_singleton.mpr rfl), hcreated⟩

theorem settleRegion (hroot : w.tree.get? ScopeTree.rootId ≠ none)
    (hfrom : ∀ r ∈ l, created = some r.id ∨ r ∈ old) (holdIds : (old.map (·.id)).Nodup)
    (hold : ∀ r ∈ old, ∃ further, w.tree.shape? r.scope =
      some (r.closed, r.start, scopeOf old r.parent :: further)) :
    Progress w l created (done ++ [r]) (settleRegion l created s r done.length) := by
  have hmem : r ∈ l := by simp [hl]
  unfold Document.settleRegion
  simp only
  split
  · -- the region gets a new scope inside that of its parent
    have hpresent := h.get?_scopeOf hroot (parentOf l r done.length)
    obtain ⟨further, hshape⟩ := ScopeTree.shape?_child hpresent r.name r.start r.closed
    have hadvances := ScopeTree.advances_child h.coherent.tied
      (scopeOf s.settled (parentOf l r done.length)) r.name r.start r.closed 0
    have hfresh : s.tree.get? s.tree.nextId = none := by
      rw [Option.eq_none_iff_forall_ne_some]
      intro scope hscope
      exact Nat.lt_irrefl _ (h.coherent.tied.id_lt hscope)
    refine h.extend horder hdistinct hl rfl rfl (h.coherent.withTree_nil hadvances)
      (fun q hq => ?_) (ScopeTree.sequence_child hfresh _ _ _ _) ⟨further, ?_⟩
      (fun _ => List.mem_cons_of_mem _) fun hnot => ?_
    · rw [hshape, if_neg]
      rintro rfl
      exact hq hfresh
    · show (s.tree.child _ r.name r.start r.closed).2.shape? s.tree.nextId = _
      rw [hshape, if_pos rfl]
    · exact absurd List.mem_cons_self hnot
  · -- the region is as it was, and so is its parent
    rename_i hkeep
    simp only [Bool.or_eq_true, not_or, bne_iff_ne, ne_eq, not_not, beq_iff_eq] at hkeep
    obtain ⟨⟨hcreated, hparent⟩, hany⟩ := hkeep
    have hrold : r ∈ old := (hfrom r hmem).resolve_left hcreated
    obtain ⟨further, hshape⟩ := hold r hrold
    refine h.extend horder hdistinct hl rfl hparent h.coherent (fun _ _ => rfl) (fun _ _ => rfl)
      ⟨further, ?_⟩ (fun _ => id) fun _ => ⟨rfl, hcreated⟩
    rw [h.kept, hshape]
    · -- the scope around it is the same
      congr 4
      rw [hparent]
      cases hp : parentOf l r done.length with
      | none => rfl
      | some p =>
        obtain ⟨q, hq, rfl⟩ := List.mem_map.mp (h.parent_mem horder hdistinct hl hp)
        have hnot : q.id ∉ s.rebuilt := by simpa [hp] using hany
        obtain ⟨hdone, hnew⟩ := h.unchanged q hq hnot
        have hqold : q ∈ old := (hfrom q (by simp [hl, hdone])).resolve_left hnew
        have hsettledIds : (s.settled.map (·.id)).Nodup := by
          rw [map_id_eq h.places]
          rw [hl, List.map_append] at hdistinct
          exact (List.nodup_append.mp hdistinct).1
        rw [scopeOf_of_mem holdIds hqold, scopeOf_of_mem hsettledIds hq]
    · rw [Ne, ← ScopeTree.shape?_eq_none_iff, hshape]
      simp

end Next

/-- All regions are settled. -/
theorem settleAll (horder : InOrder l) (hdistinct : (l.map (·.id)).Nodup)
    (hroot : w.tree.get? ScopeTree.rootId ≠ none)
    (hfrom : ∀ r ∈ l, created = some r.id ∨ r ∈ old) (holdIds : (old.map (·.id)).Nodup)
    (hold : ∀ r ∈ old, ∃ further, w.tree.shape? r.scope =
      some (r.closed, r.start, scopeOf old r.parent :: further)) :
    ∀ (rest done : List Region) (s : Settling), l = done ++ rest → Progress w l created done s →
      Progress w l created l ((rest.zipIdx done.length).foldl
        (fun s (r, index) => Document.settleRegion l created s r index) s) := by
  intro rest
  induction rest with
  | nil =>
    intro done s hl h
    rw [List.append_nil] at hl
    exact hl ▸ h
  | cons r rest ih =>
    intro done s hl h
    rw [List.zipIdx_cons, List.foldl_cons]
    have hnext := ih (done ++ [r]) _ (by rw [hl, List.append_assoc, List.singleton_append])
      (h.settleRegion horder hdistinct hl hroot hfrom holdIds hold)
    rwa [List.length_append, List.length_singleton] at hnext

end Progress

/-! ### Nested regions -/

/-- The regions of a document stand in order, and each has its scope inside that of its parent. -/
structure Nested (d : Document) : Prop where
  tends : d.workspace.Tends (ScopeTree.rootId :: d.regions.map (·.scope)) d.workspace.tree
  root : d.workspace.tree.get? ScopeTree.rootId ≠ none
  order : InOrder d.regions
  distinct : (d.regions.map (·.id)).Nodup
  numbered : ∀ r ∈ d.regions, r.id < d.nextRegion
  parent : ∀ i r, d.regions[i]? = some r → r.parent = parentOf d.regions r i
  around : ∀ r ∈ d.regions, ∃ further, d.workspace.tree.shape? r.scope =
    some (r.closed, r.start, scopeOf d.regions r.parent :: further)

/-- The scopes of the regions stay where they are in another workspace. -/
theorem Nested.of_tends (h : d.Nested) {w : Workspace} (entries : List Entry)
    (settings : DocumentSettings)
    (hw : w.Tends (ScopeTree.rootId :: d.regions.map (·.scope)) d.workspace.tree) :
    ({ d with workspace := w, entries, settings } : Document).Nested where
  tends := { hw with shape := fun _ _ => rfl }
  root := by
    rw [Ne, ← ScopeTree.shape?_eq_none_iff, hw.shape _ List.mem_cons_self,
      ScopeTree.shape?_eq_none_iff]
    exact h.root
  order := h.order
  distinct := h.distinct
  numbered := h.numbered
  parent := h.parent
  around r hr := by
    rw [hw.shape _ (List.mem_cons_of_mem _ (List.mem_map_of_mem hr))]
    exact h.around r hr

theorem Nested.run (h : d.Nested) (hquiet : d.workspace.agenda = []) {ops : List Op}
    (hops : ∀ op ∈ ops, op.InDocument) : (d.run ops).Nested := by
  exact h.of_tends d.entries d.settings (tends_run h.tends hquiet hops)

/-- The document with its regions settled, before its cells are moved. -/
theorem Nested.of_progress (h : d.Nested) {l : List Region} {created : Option RegionId}
    {s : Settling} (hdone : Progress d.workspace l created l s) (horder : InOrder l)
    (hdistinct : (l.map (·.id)).Nodup) (hnumbered : ∀ r ∈ l, r.id < d.nextRegion) :
    ({ d with
      regions := s.settled
      workspace := { d.workspace with
        tree := s.tree
        heldScopes := ScopeTree.rootId :: s.settled.map (·.scope) } } : Document).Nested where
  tends := by
    refine ⟨.resting (hdone.coherent.of_same rfl rfl rfl rfl rfl),
      ⟨h.tends.closed.subscriptions, h.tends.closed.answering⟩, rfl, fun _ _ => rfl, ?_,
      h.tends.numbered⟩
    exact h.tends.operations
  root := by
    show s.tree.get? ScopeTree.rootId ≠ none
    rw [Ne, ← ScopeTree.shape?_eq_none_iff, hdone.kept _ h.root, ScopeTree.shape?_eq_none_iff]
    exact h.root
  order := horder.of_places hdone.places
  distinct := map_id_eq hdone.places ▸ hdistinct
  numbered x hx := by
    have hid : x.id ∈ l.map (·.id) := map_id_eq hdone.places ▸ List.mem_map_of_mem hx
    obtain ⟨r, hr, heq⟩ := List.mem_map.mp hid
    exact heq ▸ hnumbered r hr
  parent i x hx := by
    obtain ⟨r, hr⟩ : ∃ r, l[i]? = some r := by
      refine ⟨_, List.getElem?_eq_getElem ?_⟩
      rw [← hdone.length_eq]
      exact (List.getElem?_eq_some_iff.mp hx).1
    have hplace : x.place = r.place := by
      have hget := congrArg (·[i]?) hdone.places
      have hx' : s.settled[i]? = some x := hx
      simpa [hx', hr] using hget
    have hid : x.id = r.id := congrArg (·.1) hplace
    have hstart : x.start = r.start := congrArg (·.2.1) hplace
    show x.parent = parentOf s.settled x i
    rw [parentOf_congr hdone.places horder hdistinct hr hx, hdone.parent i x hx, parentOf, parentOf,
      hid, hstart]
  around := hdone.around

/-- The regions of a document in order, each settled after those before it. -/
def settling (d : Document) (regions : List Region) (created : Option RegionId) : Settling :=
  (sortBy Region.notAfter regions).zipIdx.foldl
    (fun s (r, index) => Document.settleRegion (sortBy Region.notAfter regions) created s r index)
    ⟨d.workspace.tree, [], []⟩

/-- The document with other regions, before its cells are moved. -/
def withRegions (d : Document) (regions : List Region) (created : Option RegionId) : Document :=
  { d with
    regions := (d.settling regions created).settled
    workspace := { d.workspace with
      tree := (d.settling regions created).tree
      heldScopes := ScopeTree.rootId :: (d.settling regions created).settled.map (·.scope) } }

/-- What the regions are like that a document gets: new ones, and some that it has. -/
structure Admits (d : Document) (regions : List Region) (created : Option RegionId) : Prop where
  old : ∀ r ∈ regions, created = some r.id ∨ r ∈ d.regions
  distinct : (regions.map (·.id)).Nodup
  numbered : ∀ r ∈ regions, r.id < d.nextRegion
  proper : ∀ r ∈ regions, r.start < r.stop

section Rehome

variable (h : d.Nested) (hquiet : d.workspace.agenda = []) {regions : List Region}
  {created : Option RegionId} (hadmits : d.Admits regions created)
include hadmits

theorem Admits.inOrder : InOrder (sortBy Region.notAfter regions) :=
  ⟨pairwise_sortBy notAfter_total notAfter_trans regions,
    fun r hr => hadmits.proper r (mem_sortBy.mp hr)⟩

theorem Admits.nodup : ((sortBy Region.notAfter regions).map (·.id)).Nodup :=
  ((perm_sortBy Region.notAfter regions).map _).nodup_iff.mpr hadmits.distinct

include h hquiet

/-- Regions are put in order and settled. -/
theorem Nested.progress :
    Progress d.workspace (sortBy Region.notAfter regions) created (sortBy Region.notAfter regions)
      (d.settling regions created) := by
  have hcoherent : d.workspace.Coherent fun _ _ => False := by
    cases h.tends.ready with
    | resting hcoherent => exact hcoherent
    | telling hagenda =>
      rw [hagenda] at hquiet
      cases hquiet
  exact Progress.settleAll hadmits.inOrder hadmits.nodup h.root
    (fun r hr => hadmits.old r (mem_sortBy.mp hr)) h.distinct h.around _ [] ⟨d.workspace.tree, [], []⟩
    rfl ⟨hcoherent, fun _ _ => rfl, fun _ _ => rfl, rfl, by simp, by simp, by simp, by simp⟩

theorem Nested.withRegions : (d.withRegions regions created).Nested :=
  h.of_progress (h.progress hquiet hadmits) hadmits.inOrder hadmits.nodup
    fun r hr => hadmits.numbered r (mem_sortBy.mp hr)

/-- Every cell goes to the scope that it belongs to now. -/
theorem Nested.rehome : (d.rehome regions created).Nested := by
  refine (h.withRegions hquiet hadmits).run hquiet fun op hop => ?_
  obtain ⟨entry, -, rfl⟩ := List.mem_map.mp hop
  trivial

end Rehome

/-- What an edit of some cell keeps in any case, it keeps also if it is refused. -/
theorem onCell_keeps {P : Document → Prop} (h : P d) {key : Key} {f : CellId → Document}
    (hf : ∀ c, d.cell? key = some c → P (f c)) : P ((d.onCell key f).toOption.getD d) := by
  unfold onCell
  split
  · rename_i c hkey
    exact hf c hkey
  · exact h

/-- The number of the next region does not matter. -/
theorem Nested.withNext (h : d.Nested) :
    ({ d with nextRegion := d.nextRegion + 1 } : Document).Nested :=
  { h with numbered := fun r hr => Nat.lt_succ_of_lt (h.numbered r hr) }

/-- A region may be made that ends after it starts. -/
theorem Nested.admits_append (h : d.Nested) {region : Region} (hid : region.id = d.nextRegion)
    (hproper : region.start < region.stop) :
    ({ d with nextRegion := d.nextRegion + 1 } : Document).Admits (d.regions ++ [region])
      (some d.nextRegion) := by
  refine ⟨fun r hr => ?_, ?_, fun r hr => ?_, fun r hr => ?_⟩
  · rcases List.mem_append.mp hr with hr | hr
    · exact .inr hr
    · exact .inl (by rw [List.mem_singleton.mp hr, hid])
  · rw [List.map_append, List.nodup_append]
    refine ⟨h.distinct, by simp, fun id hmem other hother heq => ?_⟩
    obtain ⟨r, hr, rfl⟩ := List.mem_map.mp hmem
    have hlt := h.numbered r hr
    rw [List.map_singleton, List.mem_singleton] at hother
    rw [heq, hother, hid] at hlt
    exact Nat.lt_irrefl _ hlt
  · rcases List.mem_append.mp hr with hr | hr
    · exact Nat.lt_succ_of_lt (h.numbered r hr)
    · rw [List.mem_singleton.mp hr, hid]
      exact Nat.lt_succ_self _
  · rcases List.mem_append.mp hr with hr | hr
    · exact h.order.proper r hr
    · rw [List.mem_singleton.mp hr]
      exact hproper

/-- A region may go. -/
theorem Nested.admits_filter (h : d.Nested) (id : RegionId) :
    d.Admits (d.regions.filter (·.id != id)) none :=
  ⟨fun _ hr => .inr (List.mem_of_mem_filter hr), h.distinct.sublist (List.filter_sublist.map _),
    fun r hr => h.numbered r (List.mem_of_mem_filter hr),
    fun r hr => h.order.proper r (List.mem_of_mem_filter hr)⟩

/-- A region is made, unless this is refused. -/
theorem Nested.createRegion_keeps {P : Document → Prop} (h : d.Nested) (hsame : P d)
    (hrehome : ∀ n regions created, ({ d with nextRegion := n } : Document).Nested →
      ({ d with nextRegion := n } : Document).Admits regions created →
      P (({ d with nextRegion := n } : Document).rehome regions created))
    (name : String) (start stop : Position) (closed : Bool) :
    P (d.edit (.createRegion name start stop closed)) := by
  unfold Document.edit Document.createRegion
  simp only
  split
  · exact hsame
  · rename_i hproper
    exact hrehome _ _ _ h.withNext (h.admits_append rfl (Position.not_le.mp hproper))

/-- A region is deleted, unless there is none with this name. -/
theorem Nested.deleteRegion_keeps {P : Document → Prop} (h : d.Nested) (hsame : P d)
    (hrehome : ∀ regions created, d.Admits regions created → P (d.rehome regions created))
    (key : Key) : P (d.edit (.deleteRegion key)) := by
  unfold Document.edit Document.deleteRegion
  simp only
  split
  · exact hrehome _ _ (h.admits_filter _)
  · exact hsame

theorem Nested.edit (h : d.Nested) (hquiet : d.workspace.agenda = []) (e : Edit) :
    (d.edit e).Nested := by
  have hentries : ∀ (d' : Document), d' = { d with entries := d'.entries, settings := d'.settings } →
      d'.Nested ∧ d'.workspace.agenda = [] := by
    intro d' heq
    rw [heq]
    exact ⟨h.of_tends _ _ h.tends, hquiet⟩
  have hrun : ∀ (d' : Document), d' = { d with entries := d'.entries, settings := d'.settings } →
      ∀ {ops : List Op}, (∀ op ∈ ops, op.InDocument) → (d'.run ops).Nested :=
    fun d' heq => (hentries d' heq).1.run (hentries d' heq).2
  cases e with
  | createCell p e =>
    refine hrun (d.insertEntry ⟨d.workspace.nextCell, none⟩ p) rfl ?_
    simp [Op.InDocument]
  | setExpression key e =>
    refine onCell_keeps h fun c _ => hrun _ rfl ?_
    simp [Op.InDocument]
  | moveCell key p =>
    refine onCell_keeps h fun c _ => ?_
    split
    · rename_i entry _
      refine hrun ((d.removeEntry c).insertEntry entry p) rfl ?_
      simp [Op.InDocument]
    · exact h
  | deleteCell key =>
    refine onCell_keeps h fun c _ => hrun (d.removeEntry c) rfl ?_
    simp [Op.InDocument]
  | setCellSize key size =>
    refine onCell_keeps h fun c _ => hrun ({ d with
      entries := d.entries.map fun entry =>
        if entry.cell == c then { entry with size := some size } else entry }) rfl ?_
    simp
  | recalculateCell key =>
    refine onCell_keeps h fun c _ => hrun _ rfl ?_
    simp [Op.InDocument]
  | recalculate =>
    refine hrun _ rfl ?_
    simp [Op.InDocument]
  | setCalculationMode mode =>
    refine hrun ({ d with
      settings := { d.settings with calculationMode := mode } }) rfl ?_
    simp [Op.InDocument]
  | createRegion name start stop closed =>
    exact h.createRegion_keeps h (fun _ _ _ hn hadmits => hn.rehome hquiet hadmits) _ _ _ _
  | deleteRegion key =>
    exact h.deleteRegion_keeps h (fun _ _ hadmits => h.rehome hquiet hadmits) key
  | answer op hop =>
    exact h.of_tends d.entries d.settings (tends_apply h.tends hquiet hop.inDocument)

theorem nested_new (settings : DocumentSettings) (hbackend : backend.Answering) :
    (Document.new settings backend).Nested where
  tends := ⟨Workspace.Reached.start.ready, ⟨rfl, hbackend⟩, rfl, fun _ _ => rfl, by
    intro op hop
    simp [Document.new] at hop, fun hcell => by simp [Document.new, Workspace.cell?] at hcell⟩
  root := by
    show ScopeTree.root.get? ScopeTree.rootId ≠ none
    rw [ScopeTree.get?, ScopeTree.root, lookup_insert_self]
    exact Option.some_ne_none _
  order := inOrder_nil
  distinct := List.nodup_nil
  numbered := by simp [Document.new]
  parent := by simp [Document.new]
  around := by simp [Document.new]

theorem Reached.nested (h : Reached settings backend may d) (hbackend : backend.Answering) :
    d.Nested := by
  induction h with
  | new => exact nested_new settings hbackend
  | edit e _ hquiet _ ih => exact ih.edit hquiet e

/-- The scope of a region stands in that of the innermost region around its start, among those before
it in the order, or in the root scope. A region whose start another one behind it shares stands in
the root scope whatever is around it: the other region is innermost around that start, but comes too
late to be a parent. -/
theorem Reached.ancestors_head?_eq (h : Reached settings backend may d)
    (hbackend : backend.Answering) {i : Nat} {r : Region} (hr : d.regions[i]? = some r) :
    (d.workspace.tree.ancestors r.scope).head? = some
      (if startsLater d.regions i r.start then ScopeTree.rootId
      else match enclosing? d.regions i r.start with
        | some outer => outer.scope
        | none => ScopeTree.rootId) := by
  have hnested := h.nested hbackend
  obtain ⟨further, hshape⟩ := hnested.around r (List.mem_of_getElem? hr)
  have hhead : (d.workspace.tree.ancestors r.scope).head? = some (scopeOf d.regions r.parent) := by
    obtain ⟨scope, hscope, heq⟩ := Option.map_eq_some_iff.mp hshape
    simp only [Prod.mk.injEq] at heq
    rw [ScopeTree.ancestors_of_get? hscope, heq.2.2, List.head?_cons]
  rw [hhead, hnested.parent i r hr, parentOf_eq hnested.order hnested.distinct hr]
  congr 1
  split
  · rfl
  · cases henclosing : enclosing? d.regions i r.start with
    | none => rfl
    | some outer =>
      exact scopeOf_of_mem hnested.distinct (List.mem_of_mem_take (mem_of_enclosing? henclosing))

/-- A document with a region around two that share their start. -/
def sharedStart : Document :=
  (((Document.new .default .immediate).edit
    (.createRegion "outer" ⟨.ofInt 0, .ofInt 0⟩ ⟨.ofInt 0, .ofInt 100⟩ false)).edit
    (.createRegion "long" ⟨.ofInt 0, .ofInt 10⟩ ⟨.ofInt 0, .ofInt 50⟩ false)).edit
    (.createRegion "short" ⟨.ofInt 0, .ofInt 10⟩ ⟨.ofInt 0, .ofInt 20⟩ false)

theorem answering_immediate : Backend.immediate.Answering where
  onDispatch id command op hop := by
    cases List.mem_singleton.mp hop
    trivial
  onCancel id op hop := by simp [Backend.immediate] at hop

theorem reached_sharedStart : Reached .default .immediate (fun _ _ => True) sharedStart :=
  .edit _ (.edit _ (.edit _ .new rfl trivial) (by decide +kernel) trivial) (by decide +kernel) trivial

/-- The shorter of the two regions stands in the longer one. -/
theorem ancestors_head?_eq_short :
    ∃ long short, sharedStart.regions[1]? = some long ∧ sharedStart.regions[2]? = some short ∧
      (sharedStart.workspace.tree.ancestors short.scope).head? = some long.scope := by
  obtain ⟨long, hlong⟩ : ∃ long, sharedStart.regions[1]? = some long :=
    Option.isSome_iff_exists.mp (by decide +kernel)
  obtain ⟨short, hshort⟩ : ∃ short, sharedStart.regions[2]? = some short :=
    Option.isSome_iff_exists.mp (by decide +kernel)
  refine ⟨long, short, hlong, hshort, ?_⟩
  have hlater : sharedStart.regions[2]?.all fun r => !startsLater sharedStart.regions 2 r.start := by
    decide +kernel
  have houter : sharedStart.regions[2]?.bind (enclosing? sharedStart.regions 2 ·.start)
      = sharedStart.regions[1]? := by decide +kernel
  rw [hshort] at hlater houter
  rw [Option.bind_some, hlong] at houter
  rw [reached_sharedStart.ancestors_head?_eq answering_immediate hshort, if_neg (by simpa using hlater),
    houter]

/-- The longer one stands in the root scope although the outer region is around it. -/
theorem ancestors_head?_long :
    ∃ outer long, sharedStart.regions[1]? = some long ∧
      enclosing? sharedStart.regions 1 long.start = some outer ∧
      (sharedStart.workspace.tree.ancestors long.scope).head? = some ScopeTree.rootId ∧
      outer.scope ≠ ScopeTree.rootId := by
  obtain ⟨long, hlong⟩ : ∃ long, sharedStart.regions[1]? = some long :=
    Option.isSome_iff_exists.mp (by decide +kernel)
  have houter : ((sharedStart.regions[1]?.bind (enclosing? sharedStart.regions 1 ·.start)).any
      (·.scope != ScopeTree.rootId)) = true := by decide +kernel
  have hroot : sharedStart.regions[1]?.map
      (fun r => (sharedStart.workspace.tree.ancestors r.scope).head?)
        = some (some ScopeTree.rootId) := by decide +kernel
  rw [hlong] at houter hroot
  rw [Option.bind_some] at houter
  cases henclosing : enclosing? sharedStart.regions 1 long.start with
  | none =>
    rw [henclosing] at houter
    cases houter
  | some outer =>
    rw [henclosing] at houter
    exact ⟨outer, long, hlong, henclosing, Option.some.inj hroot, by simpa using houter⟩

end Document

end MathCanvas
