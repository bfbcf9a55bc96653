import MathCanvas.Binding.Check
import MathCanvas.Proofs.Binding.Readers
import Mathlib

/-!
# What a check vouches for

`check` says nothing about how a table came about. Here its answer is read for any table whatever,
from the inside out: a reader passes iff it `Fits` its slot, a slot iff it is `InOrder`, a list iff
all of its slots are, and the whole iff it is `Checked` (`check_eq_ok_iff`).

The lists of a checked table are in order (`Checked.listed`). Its readers are only counted, and that
tells that all of them are listed just if none is listed twice: this is `heldOnce_of_check`. Nor is
the name of a reader compared with that of its slot (`check_overlooks`).
-/

namespace MathCanvas

namespace Bindings

variable {b : Bindings} {id : SlotId} {name : String} {slot : Slot}

/-! ### Computations that succeed -/

section Succeeds

variable {ε α β : Type} {y : β}

theorem pure_eq_ok_iff {x : β} : (pure x : Except ε β) = .ok y ↔ x = y := by
  simp [pure, Except.pure]

theorem bind_eq_ok_iff {x : Except ε α} {f : α → Except ε β} :
    x >>= f = .ok y ↔ ∃ a, x = .ok a ∧ f a = .ok y := by
  cases x <;> simp [Bind.bind, Except.bind]

theorem andThen_eq_ok_iff {x : Except ε Unit} {f : Unit → Except ε β} :
    x >>= f = .ok y ↔ x = .ok () ∧ f () = .ok y := by
  cases x <;> simp [Bind.bind, Except.bind]

/-- A guard in front of a computation. -/
theorem guard_eq_ok_iff {c : Prop} [Decidable c] {e : ε} {f : α → Except ε β} {x : Except ε β} :
    (if c then throw e >>= f else x) = .ok y ↔ ¬c ∧ x = .ok y := by
  by_cases hc : c <;> simp [hc, Bind.bind, Except.bind, throw, throwThe, MonadExceptOf.throw]

/-- A loop succeeds iff it does so for every element. -/
theorem forM_eq_ok_iff {f : α → Except ε Unit} {l : List α} :
    l.forM f = .ok () ↔ ∀ x ∈ l, f x = .ok () := by
  induction l with
  | nil => simp [List.forM, pure, Except.pure]
  | cons x rest ih =>
    rw [show (x :: rest).forM f = (f x >>= fun _ => rest.forM f) from rfl,
      andThen_eq_ok_iff, List.forall_mem_cons, ih]

end Succeeds

/-! ### Readers and slots -/

/-- A reader is registered as one of the slot that lists it, and stands at or after that slot and
before what follows the slot. -/
def Fits (b : Bindings) (id : SlotId) (slot : Slot) (next : Option SlotPlace) (r : ReaderId) :
    Prop :=
  ∃ reader, b.readers[r]? = some reader ∧ reader.slot = id ∧
    slot.place ≤ .placed reader.position ∧ ∀ place ∈ next, .placed reader.position < place

theorem checkReader_eq_ok_iff {next : Option SlotPlace} {r : ReaderId} :
    b.checkReader name id slot next r = .ok () ↔ b.Fits id slot next r := by
  unfold checkReader Fits
  cases b.readers[r]? with
  | none => simp
  | some reader =>
    have hout : (SlotPlace.placed reader.position < slot.place ∨
          next.any (fun place => decide (place ≤ .placed reader.position)) = true) ↔
        ¬(slot.place ≤ .placed reader.position ∧
          ∀ place ∈ next, .placed reader.position < place) := by
      rw [not_and_or, SlotPlace.not_le]
      cases next <;> simp [← SlotPlace.not_le]
    simp only [hout, Option.some.injEq, exists_eq_left']
    by_cases hslot : reader.slot = id
    · by_cases hplace : slot.place ≤ .placed reader.position ∧
        ∀ place ∈ next, .placed reader.position < place
      · rw [if_neg (not_not.mpr hslot), if_neg (not_not.mpr hplace)]
        exact iff_of_true rfl ⟨hslot, hplace⟩
      · rw [if_neg (not_not.mpr hslot), if_pos hplace]
        exact iff_of_false nofun fun h => hplace h.2
    · rw [if_pos hslot]
      exact iff_of_false nofun fun h => hslot h.1

/-- A listed slot is stored with the name of the list and its index there, is an importer just if it
is the first, is not after the next one, and its readers fit. -/
structure InOrder (b : Bindings) (name : String) (i : Nat) (id : SlotId) (next : Option SlotId)
    (slot : Slot) : Prop where
  stored : b.slots[id]? = some slot
  index_eq : slot.index = i
  name_eq : slot.name = name
  importer_iff : slot.place = .importer ↔ i = 0
  next_stored : ∀ y ∈ next, ∃ place, b.place? y = some place
  le_next : ∀ place ∈ next.bind b.place?, slot.place ≤ place
  fits : ∀ r ∈ slot.readers, b.Fits id slot (next.bind b.place?) r

theorem checkSlots_cons_eq_ok_iff {i n : Nat} {rest : List SlotId} :
    b.checkSlots name i (id :: rest) = .ok n ↔ ∃ slot m, b.InOrder name i id rest.head? slot ∧
      b.checkSlots name (i + 1) rest = .ok m ∧ n = slot.readers.length + m := by
  rw [checkSlots]
  cases hslot : b.slots[id]? with
  | none =>
    refine iff_of_false nofun ?_
    rintro ⟨slot, m, hin, -⟩
    rw [hin.stored] at hslot
    cases hslot
  | some slot =>
    have himporter : ¬decide (i = 0) ≠ slot.place.isImporter ↔
        (slot.place = .importer ↔ i = 0) := by
      rw [not_not, Bool.eq_iff_iff, decide_eq_true_eq, SlotPlace.isImporter_iff]
      exact iff_comm
    -- what is left to check once the place of the next slot is known
    have hrest : ∀ next : Option SlotPlace,
        (¬next.any (fun next => decide (next < slot.place)) = true ∧
            slot.readers.forM (b.checkReader name id slot next) = .ok () ∧
            (do return slot.readers.length + (← b.checkSlots name (i + 1) rest)) = .ok n) ↔
          (∀ place ∈ next, slot.place ≤ place) ∧ (∀ r ∈ slot.readers, b.Fits id slot next r) ∧
            ∃ m, b.checkSlots name (i + 1) rest = .ok m ∧ n = slot.readers.length + m := by
      intro next
      refine and_congr ?_ (and_congr ?_ ?_)
      · cases next <;> simp [SlotPlace.not_lt]
      · simp only [forM_eq_ok_iff, checkReader_eq_ok_iff]
      · simp only [bind_eq_ok_iff, pure_eq_ok_iff, eq_comm (a := n)]
    calc
      _ ↔ slot.index = i ∧ slot.name = name ∧ (slot.place = .importer ↔ i = 0) ∧
          (∀ y ∈ rest.head?, ∃ place, b.place? y = some place) ∧
          (∀ place ∈ rest.head?.bind b.place?, slot.place ≤ place) ∧
          (∀ r ∈ slot.readers, b.Fits id slot (rest.head?.bind b.place?) r) ∧
          ∃ m, b.checkSlots name (i + 1) rest = .ok m ∧ n = slot.readers.length + m := by
        dsimp only
        rw [guard_eq_ok_iff, guard_eq_ok_iff, guard_eq_ok_iff, himporter, not_not, not_not]
        refine and_congr_right' (and_congr_right' (and_congr_right' ?_))
        cases rest with
        | nil =>
          dsimp only
          rw [pure_bind, guard_eq_ok_iff, andThen_eq_ok_iff, hrest]
          exact (and_iff_right nofun).symm
        | cons following rest =>
          dsimp only
          rw [List.head?_cons, Option.bind_some]
          cases hplace : b.place? following with
          | none =>
            refine iff_of_false nofun fun h => ?_
            obtain ⟨place, hstored⟩ := h.1 following rfl
            rw [hplace] at hstored
            cases hstored
          | some place =>
            dsimp only
            rw [pure_bind, guard_eq_ok_iff, andThen_eq_ok_iff, hrest]
            refine (and_iff_right ?_).symm
            rintro _ ⟨⟩
            exact ⟨place, hplace⟩
      _ ↔ _ := by
        constructor
        · rintro ⟨hindex, hname, hfirst, hnext, hle, hfits, m, hm, hn⟩
          exact ⟨slot, m, ⟨hslot, hindex, hname, hfirst, hnext, hle, hfits⟩, hm, hn⟩
        · rintro ⟨slot', m, hin, hm, hn⟩
          obtain rfl := Option.some.inj (hslot.symm.trans hin.stored)
          exact ⟨hin.index_eq, hin.name_eq, hin.importer_iff, hin.next_stored, hin.le_next,
            hin.fits, m, hm, hn⟩

/-! ### Names -/

/-- The readers that a slot holds. -/
def holds (b : Bindings) (id : SlotId) : List ReaderId := (b.slots[id]?).elim [] Slot.readers

theorem holds_of_lookup (h : b.slots[id]? = some slot) : b.holds id = slot.readers := by
  rw [holds, h, Option.elim_some]

theorem mem_holds {r : ReaderId} :
    r ∈ b.holds id ↔ ∃ slot, b.slots[id]? = some slot ∧ r ∈ slot.readers := by
  unfold holds
  cases b.slots[id]? <;> simp

/-- Every slot of a list is in order there. -/
def AllInOrder (b : Bindings) (name : String) (i : Nat) (ids : List SlotId) : Prop :=
  ∀ (j : Nat) (id : SlotId), ids[j]? = some id →
    ∃ slot, b.InOrder name (i + j) id ids[j + 1]? slot

theorem allInOrder_cons {i : Nat} {rest : List SlotId} :
    b.AllInOrder name i (id :: rest) ↔
      (∃ slot, b.InOrder name i id rest.head? slot) ∧ b.AllInOrder name (i + 1) rest := by
  constructor
  · intro h
    refine ⟨?_, fun j y hy => ?_⟩
    · have hfirst := h 0 id rfl
      rwa [List.getElem?_cons_succ, ← List.head?_eq_getElem?] at hfirst
    · have hlater := h (j + 1) y hy
      rwa [List.getElem?_cons_succ, show i + (j + 1) = i + 1 + j by omega] at hlater
  · rintro ⟨hfirst, hlater⟩ j y hy
    cases j with
    | zero =>
      cases hy
      rwa [List.getElem?_cons_succ, ← List.head?_eq_getElem?]
    | succ j =>
      rw [List.getElem?_cons_succ, show i + (j + 1) = i + 1 + j by omega]
      exact hlater j y hy

/-- Checking the slots of a list counts their readers. -/
theorem checkSlots_eq_ok_iff {i n : Nat} {ids : List SlotId} :
    b.checkSlots name i ids = .ok n ↔
      b.AllInOrder name i ids ∧ n = (ids.flatMap b.holds).length := by
  induction ids generalizing i n with
  | nil => simp [checkSlots, AllInOrder, eq_comm]
  | cons id rest ih =>
    rw [checkSlots_cons_eq_ok_iff, allInOrder_cons, List.flatMap_cons, List.length_append]
    constructor
    · rintro ⟨slot, m, hin, hm, rfl⟩
      obtain ⟨hrest, rfl⟩ := ih.mp hm
      exact ⟨⟨⟨slot, hin⟩, hrest⟩, by rw [holds_of_lookup hin.stored]⟩
    · rintro ⟨⟨⟨slot, hin⟩, hrest⟩, rfl⟩
      exact ⟨slot, _, hin, ih.mpr ⟨hrest, rfl⟩, by rw [holds_of_lookup hin.stored]⟩

theorem checkName_eq_ok_iff {n : Nat} {ids : List SlotId} :
    b.checkName name ids = .ok n ↔ (ids ≠ [] ∧ b.AllInOrder name 0 ids ∧
      ∀ importer, ids = [importer] → b.isRead importer = true) ∧
        n = (ids.flatMap b.holds).length := by
  unfold checkName
  rw [bind_eq_ok_iff]
  simp only [checkSlots_eq_ok_iff]
  match ids with
  | [] => exact iff_of_false (fun ⟨_, _, h⟩ => nomatch h) fun h => h.1.1 rfl
  | [importer] =>
    by_cases hread : b.isRead importer = true
    · simp only [hread, if_true, pure_eq_ok_iff, exists_eq_right]
      refine and_congr_left' ⟨fun h => ⟨nofun, h, ?_⟩, fun h => h.2.1⟩
      rintro _ ⟨⟩
      exact hread
    · refine iff_of_false ?_ fun h => hread (h.1.2.2 importer rfl)
      rintro ⟨_, -, h⟩
      dsimp only at h
      rw [if_neg hread] at h
      cases h
  | _ :: _ :: _ =>
    simp only [pure_eq_ok_iff, exists_eq_right]
    exact and_congr_left' ⟨fun h => ⟨nofun, h, nofun⟩, fun h => h.2.1⟩

theorem foldlM_add_eq_ok_iff {α ε : Type} {f : α → Except ε Nat} {P : α → Prop} {g : α → Nat}
    (h : ∀ x n, f x = .ok n ↔ P x ∧ n = g x) {l : List α} {n m : Nat} :
    l.foldlM (fun total x => return total + (← f x)) n = .ok m ↔
      (∀ x ∈ l, P x) ∧ m = n + (l.map g).sum := by
  induction l generalizing n with
  | nil => simp [pure, Except.pure, eq_comm]
  | cons x rest ih =>
    rw [List.foldlM_cons, bind_eq_ok_iff, List.forall_mem_cons, List.map_cons, List.sum_cons,
      ← Nat.add_assoc]
    simp only [ih, bind_eq_ok_iff, h, pure_eq_ok_iff]
    constructor
    · rintro ⟨_, ⟨_, ⟨hx, rfl⟩, rfl⟩, hrest, hm⟩
      exact ⟨⟨hx, hrest⟩, hm⟩
    · rintro ⟨⟨hx, hrest⟩, hm⟩
      exact ⟨_, ⟨_, ⟨hx, rfl⟩, rfl⟩, hrest, hm⟩

theorem foldl_add_eq {α : Type} (g : α → Nat) (l : List α) (n : Nat) :
    l.foldl (fun total x => total + g x) n = n + (l.map g).sum := by
  induction l generalizing n with
  | nil => rfl
  | cons x rest ih => rw [List.foldl_cons, ih, List.map_cons, List.sum_cons, Nat.add_assoc]

/-- The slots of all names. -/
def listedSlots (b : Bindings) : List SlotId := b.lists.toList.flatMap Prod.snd

/-- What a check looks at: the list of every name, and how many readers and slots there are in
all lists. -/
structure Checked (b : Bindings) : Prop where
  ne_nil : ∀ name : String, b.lists[name]? ≠ some []
  allInOrder : ∀ name : String, b.AllInOrder name 0 (b.slotsOf name)
  needed : b.Needed
  length_holds : (b.listedSlots.flatMap b.holds).length = b.readers.size
  length_listedSlots : b.listedSlots.length = b.slots.size

/-- Every entry passes iff no name has an empty list, the list of every name is in order, and none
is without need. -/
theorem forall_mem_lists_iff :
    (∀ entry ∈ b.lists.toList, entry.2 ≠ [] ∧ b.AllInOrder entry.1 0 entry.2 ∧
      ∀ importer, entry.2 = [importer] → b.isRead importer = true) ↔
    (∀ name : String, b.lists[name]? ≠ some []) ∧
      (∀ name : String, b.AllInOrder name 0 (b.slotsOf name)) ∧ b.Needed := by
  constructor
  · intro h
    have hlist : ∀ {name ids}, b.lists[name]? = some ids → _ := fun hids =>
      h (_, _) (Std.TreeMap.mem_toList_iff_getElem?_eq_some.mpr hids)
    refine ⟨fun name hnil => (hlist hnil).1 rfl, fun name => ?_, fun {name importer} hids => ?_⟩
    · cases hids : b.lists[name]? with
      | none =>
        rw [slotsOf, hids, Option.getD_none]
        intro j id hid
        rw [List.getElem?_nil] at hid
        cases hid
      | some ids =>
        rw [slotsOf_of_lookup hids]
        exact (hlist hids).2.1
    · exact (hlist (lookup_of_slotsOf_ne_nil (by simp [hids]))).2.2 importer hids
  · rintro ⟨hne, horder, hneeded⟩ ⟨name, ids⟩ hentry
    have hids := Std.TreeMap.mem_toList_iff_getElem?_eq_some.mp hentry
    have hslots := slotsOf_of_lookup hids
    refine ⟨?_, hslots ▸ horder name, fun importer himporter => hneeded (hslots.trans himporter)⟩
    rintro rfl
    exact hne name hids

theorem check_eq_ok_iff : b.check = .ok () ↔ b.Checked := by
  have hholds : (b.lists.toList.map fun entry => (entry.2.flatMap b.holds).length).sum
      = (b.listedSlots.flatMap b.holds).length := by
    rw [listedSlots, List.flatMap_assoc, List.length_flatMap]
  have hlisted : b.lists.toList.foldl (fun total entry => total + entry.2.length) 0
      = b.listedSlots.length := by
    rw [foldl_add_eq fun entry : String × List SlotId => entry.2.length, Nat.zero_add, listedSlots,
      List.length_flatMap]
  unfold check
  rw [bind_eq_ok_iff]
  simp only [foldlM_add_eq_ok_iff (fun (entry : String × List SlotId) n => checkName_eq_ok_iff),
    forall_mem_lists_iff, hholds, hlisted, Nat.zero_add, guard_eq_ok_iff]
  constructor
  · rintro ⟨_, ⟨⟨hne, horder, hneeded⟩, rfl⟩, hreaders, hslots⟩
    rw [not_not] at hreaders
    split at hslots
    · cases hslots
    · rename_i hlength
      exact ⟨hne, horder, hneeded, hreaders, not_not.mp hlength⟩
  · intro h
    refine ⟨_, ⟨⟨h.ne_nil, h.allInOrder, h.needed⟩, rfl⟩, not_not.mpr h.length_holds, ?_⟩
    rw [if_neg (not_not.mpr h.length_listedSlots)]
    rfl

/-! ### Counting -/

/-- Lists that are equally long have the same members if one of them is without repetition and is
contained in the other. -/
theorem perm_of_subset_of_length {α : Type} {l l' : List α} (hl : l.Nodup) (hsub : l ⊆ l')
    (hlen : l.length = l'.length) : l.Perm l' :=
  (List.subperm_of_subset hl hsub).perm_of_length_le hlen.ge

theorem mem_listedSlots : id ∈ b.listedSlots ↔ ∃ name, id ∈ b.slotsOf name := by
  rw [listedSlots, List.mem_flatMap]
  constructor
  · rintro ⟨⟨name, ids⟩, hentry, hid⟩
    exact ⟨name, slotsOf_of_lookup (Std.TreeMap.mem_toList_iff_getElem?_eq_some.mp hentry) ▸ hid⟩
  · rintro ⟨name, hid⟩
    exact ⟨(name, b.slotsOf name), Std.TreeMap.mem_toList_iff_getElem?_eq_some.mpr
      (lookup_of_slotsOf_ne_nil (List.ne_nil_of_mem hid)), hid⟩

/-- A slot knows its name and its index, so that it is listed only once. -/
theorem nodup_listedSlots_of (h : ∀ {name : String} {i : Nat} {id : SlotId},
    (b.slotsOf name)[i]? = some id → ∃ slot, b.slots[id]? = some slot ∧ slot.name = name ∧
      slot.index = i) : b.listedSlots.Nodup := by
  have hids : ∀ entry ∈ b.lists.toList, b.slotsOf entry.1 = entry.2 := fun entry hentry =>
    slotsOf_of_lookup (Std.TreeMap.mem_toList_iff_getElem?_eq_some.mp hentry)
  have hsame : ∀ {n m : String} {i j : Nat} {id : SlotId}, (b.slotsOf n)[i]? = some id →
      (b.slotsOf m)[j]? = some id → n = m ∧ i = j := by
    intro n m i j id hi hj
    obtain ⟨slot, hslot, rfl, rfl⟩ := h hi
    obtain ⟨slot', hslot', rfl, rfl⟩ := h hj
    obtain rfl := Option.some.inj (hslot.symm.trans hslot')
    exact ⟨rfl, rfl⟩
  rw [listedSlots, List.nodup_flatMap]
  refine ⟨fun entry hentry => ?_, (Std.TreeMap.distinct_keys_toList (t := b.lists)).imp_of_mem ?_⟩
  · rw [← hids entry hentry, List.nodup_iff_getElem?_ne_getElem?]
    intro i j hij hj heq
    have hget := List.getElem?_eq_getElem hj
    exact hij.ne (hsame (heq.trans hget) hget).2
  · intro entry entry' hentry hentry' hne id hid hid'
    rw [← hids entry hentry] at hid
    rw [← hids entry' hentry'] at hid'
    obtain ⟨i, hi⟩ := List.mem_iff_getElem?.mp hid
    obtain ⟨j, hj⟩ := List.mem_iff_getElem?.mp hid'
    exact hne (by rw [(hsame hi hj).1]; exact Std.ReflCmp.compare_self)

theorem Listed.nodup_listedSlots (hb : b.Listed none) : b.listedSlots.Nodup :=
  nodup_listedSlots_of fun hi => by
    obtain ⟨slot, hslot, hname, hindex, -⟩ := hb.stored hi
    exact ⟨slot, hslot, hname, hindex⟩

/-- Places do not decrease along a list if they do not from one slot to the next. -/
theorem pairwise_place_le {ids : List SlotId} (h : ∀ (i : Nat) (x y : SlotId), ids[i]? = some x →
    ids[i + 1]? = some y → ∃ p q, b.place? x = some p ∧ b.place? y = some q ∧ p ≤ q) :
    ids.Pairwise fun x y => ∀ p q, b.place? x = some p → b.place? y = some q → p ≤ q := by
  induction ids with
  | nil => exact .nil
  | cons x rest ih =>
    have hrest := ih fun i y z hy hz => h (i + 1) y z hy hz
    refine List.pairwise_cons.mpr ⟨fun z hz p r hp hr => ?_, hrest⟩
    cases rest with
    | nil => cases hz
    | cons y rest =>
      obtain ⟨p', q, hp', hq, hle⟩ := h 0 x y rfl rfl
      obtain rfl := Option.some.inj (hp.symm.trans hp')
      rcases List.mem_cons.mp hz with rfl | hz
      · rwa [Option.some.inj (hr.symm.trans hq)]
      · exact SlotPlace.le_trans hle ((List.pairwise_cons.mp hrest).1 z hz q r hq hr)

/-! ### What a check vouches for -/

section

variable (h : b.Checked)

include h

theorem Checked.exists_inOrder {i : Nat} (hi : (b.slotsOf name)[i]? = some id) :
    ∃ slot, b.InOrder name i id (b.slotsOf name)[i + 1]? slot := by
  obtain ⟨slot, hin⟩ := h.allInOrder name i id hi
  exact ⟨slot, by rwa [Nat.zero_add] at hin⟩

theorem Checked.perm_listedSlots : b.listedSlots.Perm b.slots.keys := by
  refine perm_of_subset_of_length (nodup_listedSlots_of fun hi => ?_) (fun id hid => ?_) ?_
  · obtain ⟨slot, hin⟩ := h.exists_inOrder hi
    exact ⟨slot, hin.stored, hin.name_eq, hin.index_eq⟩
  · obtain ⟨name, hid⟩ := mem_listedSlots.mp hid
    obtain ⟨i, hi⟩ := List.mem_iff_getElem?.mp hid
    obtain ⟨slot, hin⟩ := h.exists_inOrder hi
    exact (mem_keys_iff_lookup _ _).mpr ⟨slot, hin.stored⟩
  · rw [h.length_listedSlots, Std.TreeMap.length_keys]

/-- A stored slot is in order in the list of its name. -/
theorem Checked.inOrder (hslot : b.slots[id]? = some slot) :
    (b.slotsOf slot.name)[slot.index]? = some id ∧
      b.InOrder slot.name slot.index id (b.slotsOf slot.name)[slot.index + 1]? slot := by
  have hkey : id ∈ b.slots.keys := (mem_keys_iff_lookup _ _).mpr ⟨slot, hslot⟩
  obtain ⟨name, hid⟩ := mem_listedSlots.mp (h.perm_listedSlots.mem_iff.mpr hkey)
  obtain ⟨i, hi⟩ := List.mem_iff_getElem?.mp hid
  obtain ⟨slot', hin⟩ := h.exists_inOrder hi
  obtain rfl := Option.some.inj (hslot.symm.trans hin.stored)
  obtain rfl := hin.name_eq
  obtain rfl := hin.index_eq
  exact ⟨hi, hin⟩

theorem Checked.listed : b.Listed none where
  ne_nil := h.ne_nil
  stored hi := by
    obtain ⟨slot, hin⟩ := h.exists_inOrder hi
    exact ⟨slot, hin.stored, hin.name_eq, hin.index_eq, hin.importer_iff⟩
  listed hslot _ := (h.inOrder hslot).1
  not_mem_of_loose := nofun
  ordered name := pairwise_place_le fun i x y hx hy => by
    obtain ⟨slot, hin⟩ := h.exists_inOrder hx
    obtain ⟨place, hplace⟩ := hin.next_stored y hy
    refine ⟨slot.place, place, by rw [place?, hin.stored, Option.map_some], hplace, ?_⟩
    exact hin.le_next place (by rw [hy, Option.bind_some, hplace]; rfl)

end

/-- A slot is the last of its list up to a position iff the position is not before the slot, and
before the next one. -/
theorem Listed.lastUpTo?_eq_some_iff (hb : b.Listed none) (hslot : b.slots[id]? = some slot)
    {p : Position} : b.lastUpTo? slot.name p = some id ↔ slot.place ≤ .placed p ∧
      ∀ place ∈ (b.slotsOf slot.name)[slot.index + 1]?.bind b.place?, .placed p < place := by
  rw [← hb.reaches_iff (hb.mem_slotsOf hslot nofun)]
  unfold reaches
  simp only [hslot, Bool.and_eq_true, decide_eq_true_eq]
  refine and_congr_right' ?_
  cases hnext : (b.slotsOf slot.name)[slot.index + 1]? with
  | none => exact iff_of_true rfl (by rintro _ ⟨⟩)
  | some next =>
    rw [Option.all_some, isUpTo, Option.bind_some]
    cases b.place? next with
    | none => exact iff_of_true rfl (by rintro _ ⟨⟩)
    | some place => simp [← SlotPlace.not_le]

/-- The readers that a slot lists observe it. -/
theorem Checked.observes (h : b.Checked) {r : ReaderId} (hslot : b.slots[id]? = some slot)
    (hr : r ∈ slot.readers) : ∃ reader, b.readers[r]? = some reader ∧ reader.slot = id := by
  obtain ⟨reader, hreader, hid, -⟩ := (h.inOrder hslot).2.fits r hr
  exact ⟨reader, hreader, hid⟩

/-- A slot is the last of its list up to the readers that it lists. -/
theorem Checked.last (h : b.Checked) {r : ReaderId} {reader : Reader}
    (hslot : b.slots[id]? = some slot) (hr : r ∈ slot.readers)
    (hreader : b.readers[r]? = some reader) :
    b.lastUpTo? slot.name reader.position = some id := by
  obtain ⟨reader', hreader', -, hplace⟩ := (h.inOrder hslot).2.fits r hr
  obtain rfl := Option.some.inj (hreader.symm.trans hreader')
  exact (h.listed.lastUpTo?_eq_some_iff hslot).mpr hplace

/-- No reader is counted twice if no slot lists one twice. -/
theorem nodup_flatMap_holds (hb : b.listedSlots.Nodup)
    (hobserves : ∀ {id : SlotId} {slot : Slot} {r : ReaderId}, b.slots[id]? = some slot →
      r ∈ slot.readers → ∃ reader, b.readers[r]? = some reader ∧ reader.slot = id)
    (hnodup : ∀ {id : SlotId} {slot : Slot}, b.slots[id]? = some slot → slot.readers.Nodup) :
    (b.listedSlots.flatMap b.holds).Nodup := by
  rw [List.nodup_flatMap]
  refine ⟨fun id _ => ?_, hb.imp fun {x y} hne r hx hy => hne ?_⟩
  · unfold holds
    cases hslot : b.slots[id]? with
    | none => exact List.nodup_nil
    | some slot => exact hnodup hslot
  · obtain ⟨slot, hslot, hin⟩ := mem_holds.mp hx
    obtain ⟨slot', hslot', hin'⟩ := mem_holds.mp hy
    obtain ⟨reader, hreader, rfl⟩ := hobserves hslot hin
    obtain ⟨reader', hreader', rfl⟩ := hobserves hslot' hin'
    rw [Option.some.inj (hreader.symm.trans hreader')]

/-- If no slot lists a reader twice, then the count is right only if every reader is listed. -/
theorem Checked.held (h : b.Checked)
    (hnodup : ∀ {id : SlotId} {slot : Slot}, b.slots[id]? = some slot → slot.readers.Nodup)
    {r : ReaderId} {reader : Reader} (hr : b.readers[r]? = some reader) :
    ∃ slot, b.slots[reader.slot]? = some slot ∧ r ∈ slot.readers := by
  have hperm : (b.listedSlots.flatMap b.holds).Perm b.readers.keys := by
    refine perm_of_subset_of_length
      (nodup_flatMap_holds h.listed.nodup_listedSlots h.observes hnodup) (fun r hr => ?_) ?_
    · obtain ⟨id, -, hr⟩ := List.mem_flatMap.mp hr
      obtain ⟨slot, hslot, hin⟩ := mem_holds.mp hr
      obtain ⟨reader, hreader, -⟩ := h.observes hslot hin
      exact (mem_keys_iff_lookup _ _).mpr ⟨reader, hreader⟩
    · rw [h.length_holds, Std.TreeMap.length_keys]
  have hlisted := hperm.mem_iff.mpr ((mem_keys_iff_lookup _ _).mpr ⟨reader, hr⟩)
  obtain ⟨id, -, hid⟩ := List.mem_flatMap.mp hlisted
  obtain ⟨slot, hslot, hin⟩ := mem_holds.mp hid
  obtain ⟨reader', hreader', rfl⟩ := h.observes hslot hin
  obtain rfl := Option.some.inj (hr.symm.trans hreader')
  exact ⟨slot, hslot, hin⟩

/-- A reader is listed by the slot that it observes, once, and by no other slot; and this slot is
the last of its list up to the reader. -/
structure HeldOnce (b : Bindings) (r : ReaderId) (reader : Reader) (slot : Slot) : Prop where
  observed : b.slots[reader.slot]? = some slot
  count_eq_one : slot.readers.count r = 1
  eq_of_mem : ∀ {id : SlotId} {other : Slot}, b.slots[id]? = some other → r ∈ other.readers →
    id = reader.slot
  last : b.lastUpTo? slot.name reader.position = some reader.slot

/-- In a table without a defect every reader that some slot lists observes this slot, which is the
last of its list up to the reader. That every reader is listed, and once, is so iff no slot lists a
reader twice; the list is that of the reader's own name iff the slot has this name. -/
theorem heldOnce_of_check (hcheck : b.check = .ok ()) :
    (∀ {id : SlotId} {slot : Slot} {r : ReaderId}, b.slots[id]? = some slot → r ∈ slot.readers →
      ∃ reader, b.readers[r]? = some reader ∧ reader.slot = id ∧
        b.lastUpTo? slot.name reader.position = some id) ∧
    ((∀ {id : SlotId} {slot : Slot}, b.slots[id]? = some slot → slot.readers.Nodup) ↔
      ∀ {r : ReaderId} {reader : Reader}, b.readers[r]? = some reader →
        ∃ slot, b.HeldOnce r reader slot ∧
          (b.lastUpTo? reader.name reader.position = some reader.slot ↔
            slot.name = reader.name)) := by
  have h := check_eq_ok_iff.mp hcheck
  refine ⟨fun hslot hin => ?_, fun hnodup r reader hr => ?_, fun hheld id slot hslot => ?_⟩
  · obtain ⟨reader, hreader, hid⟩ := h.observes hslot hin
    exact ⟨reader, hreader, hid, h.last hslot hin hreader⟩
  · obtain ⟨slot, hslot, hin⟩ := h.held hnodup hr
    have hlast := h.last hslot hin hr
    refine ⟨slot, ⟨hslot, List.count_eq_one_of_mem (hnodup hslot) hin, fun hother hin => ?_, hlast⟩,
      fun hown => ?_, fun hname => ?_⟩
    · obtain ⟨reader', hreader', rfl⟩ := h.observes hother hin
      rw [Option.some.inj (hr.symm.trans hreader')]
    · obtain ⟨slot', hslot', hname⟩ := h.listed.stored_of_mem (mem_of_lastUpTo? hown)
      obtain rfl := Option.some.inj (hslot.symm.trans hslot')
      exact hname
    · rwa [hname] at hlast
  · rw [List.nodup_iff_count_eq_one]
    intro r hin
    obtain ⟨reader, hreader, rfl⟩ := h.observes hslot hin
    obtain ⟨slot', hheld, -⟩ := hheld hreader
    obtain rfl := Option.some.inj (hslot.symm.trans hheld.observed)
    exact hheld.count_eq_one

/-- A definition at the origin that lists the readers `held`, and two readers there that observe it,
the second one under a name of its own. -/
def twoReaders (held : List ReaderId) (name : String) : Bindings where
  lists := Std.TreeMap.ofList [("x", [0, 1])]
  slots := Std.TreeMap.ofList
    [(0, { name := "x", place := .importer, index := 0, value := .free, readers := [] : Slot }),
      (1, { name := "x", place := .placed .origin, index := 1, value := .unset, readers := held })]
  readers := Std.TreeMap.ofList
    [(2, { name := "x", position := .origin, slot := 1 : Reader }),
      (3, { name := name, position := .origin, slot := 1 })]
  nextId := 4

/-- No defect is found if the definition lists the first reader twice and the second one is listed
nowhere, nor if the second one has a name that is not in use. -/
theorem check_overlooks :
    ((twoReaders [2, 2] "x").check = .ok () ∧
      (twoReaders [2, 2] "x").readers[3]? = some ⟨"x", .origin, 1⟩ ∧
      ∀ id : SlotId, 3 ∉ (twoReaders [2, 2] "x").holds id) ∧
    (twoReaders [2, 3] "y").check = .ok () ∧
      (twoReaders [2, 3] "y").readers[3]? = some ⟨"y", .origin, 1⟩ ∧
      (twoReaders [2, 3] "y").slotsOf "y" = [] := by
  refine ⟨⟨by decide +kernel, by decide +kernel, fun id hid => ?_⟩, by decide +kernel,
    by decide +kernel, by decide +kernel⟩
  have hslots : ∀ entry ∈ (twoReaders [2, 2] "x").slots.toList, 3 ∉ entry.2.readers := by
    decide +kernel
  obtain ⟨slot, hslot, hin⟩ := mem_holds.mp hid
  exact hslots (id, slot) (Std.TreeMap.mem_toList_iff_getElem?_eq_some.mpr hslot) hin

theorem heldOnce_of_check_twoReaders :
    (twoReaders [2, 3] "x").check = .ok () ∧
      ∃ slot, (twoReaders [2, 3] "x").HeldOnce 3 ⟨"x", .origin, 1⟩ slot ∧ slot.name = "x" := by
  have hcheck : (twoReaders [2, 3] "x").check = .ok () := by decide +kernel
  have hnodup : ∀ {id : SlotId} {slot : Slot}, (twoReaders [2, 3] "x").slots[id]? = some slot →
      slot.readers.Nodup := by
    intro id slot hslot
    have hslots : ∀ entry ∈ (twoReaders [2, 3] "x").slots.toList, entry.2.readers.Nodup := by
      decide +kernel
    exact hslots (id, slot) (Std.TreeMap.mem_toList_iff_getElem?_eq_some.mpr hslot)
  have hreader : (twoReaders [2, 3] "x").readers[3]? = some ⟨"x", .origin, 1⟩ := by decide +kernel
  obtain ⟨slot, hheld, hname⟩ := (heldOnce_of_check hcheck).2.mp hnodup hreader
  exact ⟨hcheck, slot, hheld, hname.mp (by decide +kernel)⟩

end Bindings

end MathCanvas
