import MathCanvas.Proofs.Scope.Tied

/-!
# What a name means in a scope

`ScopeTree.resolve` looks a name up from scratch: the last definition of the name at or before the
position, or else what the name means outside, where the scope starts. In a tree that is tied and
has no unsettled link, this is what every reader observes (`WellTied.readerValue?_same`). The
induction is on the numbers of the scopes, because a scope is younger than those around it.
-/

namespace MathCanvas

namespace Bindings

variable {b : Bindings} {r : ReaderId} {reader : Reader} {name : String} {p : Position}

/-- Whether a slot is a definition at or before a position. -/
def isDefinedUpTo (b : Bindings) (p : Position) (id : SlotId) : Bool :=
  match b.place? id with
  | some (.placed q) => decide (q ≤ p)
  | _ => false

/-- The value of the last definition of a name at or before a position. -/
def definedAt? (b : Bindings) (name : String) (p : Position) : Option SlotValue :=
  ((b.slotsOf name).filter (b.isDefinedUpTo p)).getLast?.bind b.value?

/-- The last slot up to a position is the last definition, or else the importer. -/
theorem lastUpTo?_eq_or (hb : b.Consistent) (name : String) (p : Position) :
    b.lastUpTo? name p =
      ((b.slotsOf name).filter (b.isDefinedUpTo p)).getLast?.or (b.importer? name) := by
  by_cases hnil : b.slotsOf name = []
  · rw [lastUpTo?, importer?, hnil]
    rfl
  · obtain ⟨importer, rest, hids, himporter, hrest⟩ := hb.exists_cons hnil
    have hup : b.isUpTo (.placed p) importer = true :=
      isUpTo_eq_true_iff.mpr ⟨_, himporter, trivial⟩
    have hnot : b.isDefinedUpTo p importer = false := by rw [isDefinedUpTo, himporter]
    have hsame : rest.filter (b.isDefinedUpTo p) = rest.filter (b.isUpTo (.placed p)) := by
      apply List.filter_congr
      intro id hid
      obtain ⟨q, hq⟩ := hrest id hid
      rw [isDefinedUpTo, isUpTo, hq]
      rfl
    rw [lastUpTo?, importer?, hids, List.filter_cons_of_pos hup,
      List.filter_cons_of_neg (by simp [hnot]), hsame, List.head?_cons, List.getLast?_cons]
    cases (rest.filter (b.isUpTo (.placed p))).getLast? <;> rfl

/-- A reader observes the last definition up to its position, or else what its name means
outside. -/
theorem readerValue?_eq_or (hb : b.Consistent) (hr : b.readers[r]? = some reader) :
    b.readerValue? r =
      (b.definedAt? reader.name reader.position).or (b.imported? reader.name) := by
  have hlast := hb.within hr
  rw [lastUpTo?_eq_or hb] at hlast
  rw [readerValue?, binding?, hr, Option.map_some, Option.bind_some, definedAt?, imported?]
  cases hdef : ((b.slotsOf reader.name).filter (b.isDefinedUpTo reader.position)).getLast? with
  | none =>
    rw [hdef, Option.none_or] at hlast
    rw [hlast, Option.bind_none, Option.none_or, Option.bind_some]
  | some id =>
    rw [hdef, Option.some_or, Option.some.injEq] at hlast
    subst hlast
    -- a slot of the list has a value
    have hmem := List.mem_of_mem_filter (List.mem_of_getLast? hdef)
    obtain ⟨slot, hslot, -⟩ := hb.stored_of_mem hmem
    rw [Option.bind_some, value?, hslot, Option.map_some, Option.some_or]

end Bindings

namespace ScopeTree

variable {t : ScopeTree} {s p : ScopeId} {scope : Scope} {r : ReaderId} {reader : Reader}
  {name : String}

/-- Looks a name up in a scope and then in those around it, which are listed innermost first. -/
def resolveFrom (t : ScopeTree) (name : String) : List ScopeId → Position → SlotValue
  | [], _ => .free
  | s :: around, p =>
    match t.get? s with
    | none => .free
    | some scope =>
      match scope.bindings.definedAt? name p with
      | some value => value
      | none => if scope.closed then .free else t.resolveFrom name around scope.start

/-- What a name means at a position in a scope. -/
def resolve (t : ScopeTree) (s : ScopeId) (name : String) (p : Position) : SlotValue :=
  t.resolveFrom name (s :: t.ancestors s) p

theorem resolve_of_defined (hs : t.get? s = some scope) {q : Position} {v : SlotValue}
    (hv : scope.bindings.definedAt? name q = some v) : t.resolve s name q = v := by
  rw [resolve, resolveFrom, hs]
  simp only [hv]

/-- Without a definition, a name is free in a closed scope and in the root. -/
theorem resolve_of_not_imported (hs : t.get? s = some scope) {q : Position}
    (hv : scope.bindings.definedAt? name q = none)
    (hwall : scope.closed = true ∨ scope.ancestors = []) : t.resolve s name q = .free := by
  rw [resolve, resolveFrom, hs]
  simp only [hv]
  rcases hwall with hwall | hwall
  · rw [if_pos hwall]
  · rw [ancestors_of_get? hs, hwall]
    simp [resolveFrom]

/-- Without a definition, a name means in an open scope what it means in the parent where the scope
starts. -/
theorem WellTied.resolve_of_imported (h : t.WellTied) (hs : t.get? s = some scope) {q : Position}
    (hv : scope.bindings.definedAt? name q = none) (hwall : scope.closed = false)
    {further : List ScopeId} (hanc : scope.ancestors = p :: further) :
    t.resolve s name q = t.resolve p name scope.start := by
  obtain ⟨-, around, hp, hfurther⟩ := h.parent hs hanc
  rw [resolve, resolveFrom, hs]
  simp only [hv, hwall, Bool.false_eq_true, if_false]
  rw [ancestors_of_get? hs, hanc, resolve, ancestors_of_get? hp, hfurther]

/-- When no link is unsettled, a reader observes what its name means at its position. -/
theorem WellTied.readerValue?_same (h : t.WellTied) (hsettled : ∀ p r, ¬t.Unsettled p r)
    (hs : t.get? s = some scope) (hr : scope.bindings.readers[r]? = some reader) :
    ∃ v, scope.bindings.readerValue? r = some v ∧
      v.same (t.resolve s reader.name reader.position) := by
  induction s using Nat.strong_induction_on generalizing scope r reader with
  | _ s ih =>
  have hconsistent := h.consistent hs
  have hanchor : scope.bindings.anchor? r = some (reader.name, reader.position) := by
    rw [Bindings.anchor?, hr, Option.map_some, Reader.anchor]
  obtain ⟨v, hv⟩ : ∃ v, scope.bindings.readerValue? r = some v := by
    obtain ⟨slot, hslot, -⟩ := hconsistent.held hr
    refine ⟨slot.value, ?_⟩
    rw [Bindings.readerValue?, Bindings.binding?, hr, Option.map_some, Option.bind_some,
      Bindings.value?, hslot, Option.map_some]
  refine ⟨v, hv, ?_⟩
  rw [Bindings.readerValue?_eq_or hconsistent hr] at hv
  cases hdef : scope.bindings.definedAt? reader.name reader.position with
  | some w =>
    rw [hdef, Option.some_or, Option.some.injEq] at hv
    rw [resolve_of_defined hs hdef, hv]
    exact SlotValue.same_refl v
  | none =>
    rw [hdef, Option.none_or] at hv
    have hused : scope.bindings.slotsOf reader.name ≠ [] :=
      hconsistent.ne_nil_of_anchor? hanchor
    have hexact : scope.Exact reader.name := h.exact id hs
    cases himp : scope.imports[reader.name]? with
    | none =>
      -- the importer is free, and so is the name
      have hwall : scope.closed = true ∨ scope.ancestors = [] := by
        by_contra hnot
        push Not at hnot
        have himports : scope.Imports reader.name := ⟨by simpa using hnot.1, hnot.2, hused⟩
        obtain ⟨x, hx⟩ := hexact.imports_iff.mpr himports
        rw [himp] at hx
        cases hx
      rw [resolve_of_not_imported hs hdef hwall, hexact.free himp v hv]
      exact SlotValue.same_refl _
    | some x =>
      obtain ⟨hwall, -, -⟩ := hexact.imports_iff.mp ⟨x, himp⟩
      obtain ⟨p, further, hanc, hf⟩ := Tied.feeds_of_imports h hs himp
      obtain ⟨around, scope', hp, hs', hfed, -⟩ := Tied.fed h hf
      rw [hs] at hs'
      cases hs'
      obtain ⟨outer, houter, hname⟩ := Option.map_eq_some_iff.mp hfed
      simp only [Reader.anchor, Prod.mk.injEq] at hname
      obtain ⟨w, hw, hsame⟩ := ih p (Tied.lt_of_feeds h hf) hp houter
      rw [h.resolve_of_imported hs hdef hwall hanc, ← hname.1, ← hname.2]
      refine SlotValue.same_trans ?_ hsame
      by_contra hne
      refine hsettled p x ⟨s, _, hf, fun hlink => hne (hlink v w ?_ ?_)⟩
      · rw [imported?, hs, Option.bind_some, hv]
      · rw [readerValue?, hp, Option.bind_some, hw]

end ScopeTree

end MathCanvas
