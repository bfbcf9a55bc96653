import Std.Data.TreeMap.Lemmas
import Mathlib.Data.List.Basic

/-!
# Look-ups in tables

What `insert`, `erase` and `modify` do to the entries of a `Std.TreeMap`, with the keys compared by
equality. A table of nested updates is read off by rewriting with `lookup_insert`, `lookup_erase`
and `lookup_modify`; `lookup_foldl_modify` and `lookup_foldl_modify_keys` read off a whole series of
updates.
-/

namespace MathCanvas

section Lookup

variable {κ β : Type} {cmp : κ → κ → Ordering} [Std.TransCmp cmp] [Std.LawfulEqCmp cmp]
  [DecidableEq κ]

theorem lookup_insert (t : Std.TreeMap κ β cmp) (k a : κ) (v : β) :
    (t.insert k v)[a]? = if k = a then some v else t[a]? := by
  rw [Std.TreeMap.getElem?_insert]
  simp only [Std.LawfulEqCmp.compare_eq_iff_eq]

theorem lookup_erase (t : Std.TreeMap κ β cmp) (k a : κ) :
    (t.erase k)[a]? = if k = a then none else t[a]? := by
  rw [Std.TreeMap.getElem?_erase]
  simp only [Std.LawfulEqCmp.compare_eq_iff_eq]

theorem lookup_modify (t : Std.TreeMap κ β cmp) (k a : κ) (f : β → β) :
    (t.modify k f)[a]? = if k = a then t[a]?.map f else t[a]? := by
  rw [Std.TreeMap.getElem?_modify]
  simp only [Std.LawfulEqCmp.compare_eq_iff_eq]
  by_cases h : k = a
  · rw [if_pos h, if_pos h, h]
  · rw [if_neg h, if_neg h]

theorem lookup_insert_self (t : Std.TreeMap κ β cmp) (k : κ) (v : β) :
    (t.insert k v)[k]? = some v := by
  rw [lookup_insert, if_pos rfl]

theorem lookup_insert_of_ne (t : Std.TreeMap κ β cmp) {k a : κ} (v : β) (h : k ≠ a) :
    (t.insert k v)[a]? = t[a]? := by
  rw [lookup_insert, if_neg h]

theorem lookup_erase_of_ne (t : Std.TreeMap κ β cmp) {k a : κ} (h : k ≠ a) :
    (t.erase k)[a]? = t[a]? := by
  rw [lookup_erase, if_neg h]

theorem lookup_erase_eq_some_iff (t : Std.TreeMap κ β cmp) {k a : κ} {v : β} :
    (t.erase k)[a]? = some v ↔ k ≠ a ∧ t[a]? = some v := by
  rw [lookup_erase]
  by_cases h : k = a <;> simp [h]

theorem lookup_modify_self (t : Std.TreeMap κ β cmp) (k : κ) (f : β → β) :
    (t.modify k f)[k]? = t[k]?.map f := by
  rw [lookup_modify, if_pos rfl]

theorem lookup_modify_of_ne (t : Std.TreeMap κ β cmp) {k a : κ} (f : β → β) (h : k ≠ a) :
    (t.modify k f)[a]? = t[a]? := by
  rw [lookup_modify, if_neg h]

/-- A series of updates at distinct keys, each with a function that depends on the key: an entry is
updated if its key is among them. -/
theorem lookup_foldl_modify {ι : Type} (key : ι → κ) (f : ι → β → β) (l : List ι)
    (hl : (l.map key).Nodup) (t : Std.TreeMap κ β cmp) (a : κ) :
    (l.foldl (fun t i => t.modify (key i) (f i)) t)[a]?
      = match l.find? (fun i => key i = a) with
        | some i => t[a]?.map (f i)
        | none => t[a]? := by
  induction l generalizing t with
  | nil => rfl
  | cons i rest ih =>
    rw [List.map_cons, List.nodup_cons] at hl
    rw [List.foldl_cons, ih hl.2, List.find?_cons]
    by_cases h : key i = a
    · have hrest : rest.find? (fun i => key i = a) = none := by
        rw [List.find?_eq_none]
        intro j hj hja
        have hja : key j = a := by simpa using hja
        exact hl.1 (by rw [h, ← hja]; exact List.mem_map_of_mem hj)
      simp only [h, hrest, decide_true, lookup_modify_self]
    · simp only [h, decide_false]
      rw [lookup_modify_of_ne _ _ h]

/-- A series of updates with one function: an entry is updated if its key is among the keys. -/
theorem lookup_foldl_modify_keys (f : β → β) (l : List κ) (hl : l.Nodup) (t : Std.TreeMap κ β cmp)
    (a : κ) :
    (l.foldl (fun t k => t.modify k f) t)[a]? = if a ∈ l then t[a]?.map f else t[a]? := by
  induction l generalizing t with
  | nil => simp
  | cons k rest ih =>
    rw [List.nodup_cons] at hl
    rw [List.foldl_cons, ih hl.2]
    by_cases h : k = a
    · subst h
      rw [if_neg hl.1, if_pos List.mem_cons_self, lookup_modify_self]
    · have hmem : a ∈ k :: rest ↔ a ∈ rest := by simp [Ne.symm h]
      simp only [hmem, lookup_modify_of_ne _ _ h]

end Lookup

section Entries

variable {κ β : Type} {cmp : κ → κ → Ordering}

theorem values_eq_map (t : Std.TreeMap κ β cmp) : t.values = t.toList.map (·.2) := by
  have hfold : t.values = t.foldr (fun _ v l => v :: l) [] := rfl
  rw [hfold, Std.TreeMap.foldr_eq_foldr_toList, List.foldr_cons_eq_append, List.append_nil]

variable [Std.TransCmp cmp] [Std.LawfulEqCmp cmp]

theorem mem_keys_iff_lookup (t : Std.TreeMap κ β cmp) (k : κ) :
    k ∈ t.keys ↔ ∃ v, t[k]? = some v := by
  rw [Std.TreeMap.mem_keys, Std.TreeMap.mem_iff_isSome_getElem?, Option.isSome_iff_exists]

theorem mem_values_iff_lookup (t : Std.TreeMap κ β cmp) (v : β) :
    v ∈ t.values ↔ ∃ k : κ, t[k]? = some v := by
  rw [values_eq_map, List.mem_map]
  constructor
  · rintro ⟨⟨k, v'⟩, hmem, rfl⟩
    exact ⟨k, Std.TreeMap.mem_toList_iff_getElem?_eq_some.mp hmem⟩
  · rintro ⟨k, hk⟩
    exact ⟨(k, v), Std.TreeMap.mem_toList_iff_getElem?_eq_some.mpr hk, rfl⟩

/-- A table made of some entries of another one. -/
theorem lookup_ofList_filter_eq_some_iff [DecidableEq κ] {t : Std.TreeMap κ β cmp}
    {f : κ × β → Bool} {k : κ} {v : β} :
    (Std.TreeMap.ofList (t.toList.filter f) cmp)[k]? = some v ↔
      t[k]? = some v ∧ f (k, v) = true := by
  have hdistinct : (t.toList.filter f).Pairwise fun a b => ¬cmp a.1 b.1 = .eq :=
    (Std.TreeMap.distinct_keys_toList (t := t)).filter f
  have hlookup : ∀ {v' : β}, (k, v') ∈ t.toList.filter f →
      (Std.TreeMap.ofList (t.toList.filter f) cmp)[k]? = some v' := fun hmem =>
    Std.TreeMap.getElem?_ofList_of_mem Std.ReflCmp.compare_self hdistinct hmem
  constructor
  · intro h
    have hmem : k ∈ Std.TreeMap.ofList (t.toList.filter f) cmp := by
      rw [Std.TreeMap.mem_iff_isSome_getElem?, h]
      rfl
    rw [Std.TreeMap.mem_ofList, List.contains_iff_mem, List.mem_map] at hmem
    obtain ⟨⟨k', v'⟩, hmem, rfl⟩ := hmem
    rw [hlookup hmem, Option.some.injEq] at h
    rw [← h]
    obtain ⟨hentry, hf⟩ := List.mem_filter.mp hmem
    exact ⟨Std.TreeMap.mem_toList_iff_getElem?_eq_some.mp hentry, hf⟩
  · intro ⟨hentry, hf⟩
    exact hlookup (List.mem_filter.mpr ⟨Std.TreeMap.mem_toList_iff_getElem?_eq_some.mpr hentry, hf⟩)

theorem lookup_ofList_filter [DecidableEq κ] {t : Std.TreeMap κ β cmp} {f : κ × β → Bool} {k : κ}
    {v : β} (h : (Std.TreeMap.ofList (t.toList.filter f) cmp)[k]? = some v) : t[k]? = some v :=
  (lookup_ofList_filter_eq_some_iff.mp h).1

end Entries

end MathCanvas
