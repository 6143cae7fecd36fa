import Std.Data.ExtTreeMap
import Std.Data.ExtTreeSet
import Mathlib.Data.List.Basic

/-!
# Finite maps and sets with an equality

The extensional tree maps of the standard library, over a comparison that decides
equality : two maps with the same lookups are equal, so an update that does not change a
lookup does not change the map. And what is collected for a list of keys, one entry a key,
looked up by key.
-/

set_option linter.unusedSectionVars false

namespace FinMap

open Std

variable {α β : Type*} {cmp : α → α → Ordering} [TransCmp cmp] [LawfulEqCmp cmp]

section Map

variable {t : ExtTreeMap α β cmp} {k a : α} {v : β}

theorem getElem?_insert [DecidableEq α] :
    (t.insert k v)[a]? = if k = a then some v else t[a]? := by
  rw [ExtTreeMap.getElem?_insert]
  simp only [LawfulEqCmp.compare_eq_iff_eq]

theorem getElem?_erase [DecidableEq α] :
    (t.erase k)[a]? = if k = a then none else t[a]? := by
  rw [ExtTreeMap.getElem?_erase]
  simp only [LawfulEqCmp.compare_eq_iff_eq]

theorem getElem?_insert_self : (t.insert k v)[k]? = some v := by
  classical
  rw [getElem?_insert, if_pos rfl]

/-- Writing what is there changes nothing. -/
theorem insert_of_getElem? (h : t[k]? = some v) : t.insert k v = t := by
  classical
  ext a : 1
  rw [getElem?_insert]
  split
  · next hk => rw [← hk, h]
  · rfl

theorem insert_insert {w : β} : (t.insert k v).insert k w = t.insert k w := by
  classical
  ext a : 1
  simp only [getElem?_insert]
  split <;> rfl

theorem erase_of_getElem? (h : t[k]? = none) : t.erase k = t := by
  classical
  ext a : 1
  rw [getElem?_erase]
  split
  · next hk => rw [← hk, h]
  · rfl

theorem nodup_keys_toList : (t.toList.map Prod.fst).Nodup := by
  rw [ExtTreeMap.map_fst_toList_eq_keys]
  exact ExtTreeMap.nodup_keys

end Map

section Set

variable {t : ExtTreeSet α cmp} {k a : α}

theorem mem_insert : a ∈ t.insert k ↔ k = a ∨ a ∈ t := by
  rw [ExtTreeSet.mem_insert, LawfulEqCmp.compare_eq_iff_eq]

theorem mem_erase : a ∈ t.erase k ↔ k ≠ a ∧ a ∈ t := by
  rw [ExtTreeSet.mem_erase, Ne, LawfulEqCmp.compare_eq_iff_eq]

theorem mem_filter {p : α → Bool} : a ∈ t.filter p ↔ a ∈ t ∧ p a = true := by
  rw [ExtTreeSet.mem_filter]
  constructor
  · rintro ⟨h, hp⟩
    exact ⟨h, by rwa [ExtTreeSet.get_eq] at hp⟩
  · rintro ⟨h, hp⟩
    exact ⟨h, by rwa [ExtTreeSet.get_eq]⟩

theorem nodup_toList : t.toList.Nodup :=
  ExtTreeSet.distinct_toList.imp fun hne heq => hne (LawfulEqCmp.compare_eq_iff_eq.mpr heq)

end Set

/-! ## Lists in order -/

section Order

variable {l : List α}

/-- Up to the element at `i` there are those before it and itself. -/
theorem length_filter_isLE (hl : l.Pairwise fun a b => cmp a b = .lt) {i : ℕ} {a : α}
    (h : l[i]? = some a) : (l.filter fun b => (cmp b a).isLE).length = i + 1 := by
  obtain ⟨hi, rfl⟩ := List.getElem?_eq_some_iff.mp h
  have hlt := List.pairwise_iff_getElem.mp hl
  have htake : (l.take (i + 1)).filter (fun b => (cmp b l[i]).isLE) = l.take (i + 1) := by
    refine List.filter_eq_self.mpr fun b hb => ?_
    obtain ⟨j, hj, rfl⟩ := List.mem_take_iff_getElem.mp hb
    rcases Nat.lt_or_eq_of_le (by omega : j ≤ i) with hji | rfl
    · rw [hlt j i (by omega) hi hji]
      rfl
    · have hself : cmp l[j] l[j] = .eq := ReflCmp.compare_self
      rw [hself]
      rfl
  have hdrop : (l.drop (i + 1)).filter (fun b => (cmp b l[i]).isLE) = [] := by
    refine List.filter_eq_nil_iff.mpr fun b hb => ?_
    obtain ⟨j, hj, rfl⟩ := List.mem_drop_iff_getElem.mp hb
    rw [OrientedCmp.gt_of_lt (hlt i _ hi (by omega) (by omega))]
    exact Bool.false_ne_true
  have hsplit := List.filter_append (p := fun b => (cmp b l[i]).isLE) (l.take (i + 1))
    (l.drop (i + 1))
  rw [List.take_append_drop, htake, hdrop, List.append_nil] at hsplit
  rw [hsplit, List.length_take]
  omega

/-- The elements determine the order. -/
theorem eq_of_pairwise_lt {l' : List α} (hl : l.Pairwise fun a b => cmp a b = .lt)
    (hl' : l'.Pairwise fun a b => cmp a b = .lt) (h : ∀ a, a ∈ l ↔ a ∈ l') : l = l' := by
  have hnodup {l : List α} (hl : l.Pairwise fun a b => cmp a b = .lt) : l.Nodup := by
    refine hl.imp fun {a b} hlt heq => ?_
    have hself : cmp b b = .eq := ReflCmp.compare_self
    rw [heq, hself] at hlt
    cases hlt
  refine List.Perm.eq_of_pairwise (fun a b _ _ hab hba => ?_) hl hl'
    ((List.perm_ext_iff_of_nodup (hnodup hl) (hnodup hl')).mpr h)
  rw [OrientedCmp.gt_of_lt hab] at hba
  cases hba

end Order

/-! ## Entries for a list of keys -/

section Entries

variable {γ : Type*} {f : α → Option γ} {key : γ → α} (hkey : ∀ a x, f a = some x → key x = a)
include hkey

theorem find?_filterMap_key [DecidableEq α] (a : α) : ∀ l : List α,
    ((l.filterMap f).find? fun x => key x = a) = if a ∈ l then f a else none
  | [] => by simp
  | b :: l => by
    rw [List.filterMap_cons]
    cases hb : f b with
    | none =>
      simp only [find?_filterMap_key a l, List.mem_cons]
      by_cases heq : a = b
      · subst heq
        simp [hb]
      · simp [heq]
    | some x =>
      by_cases heq : a = b
      · subst heq
        simp [hb, hkey a x hb]
      · simp only [List.find?_cons, hkey b x hb, decide_eq_false (Ne.symm heq),
          find?_filterMap_key a l, List.mem_cons, heq, false_or]

theorem map_key_filterMap_sublist : ∀ l : List α, ((l.filterMap f).map key).Sublist l
  | [] => List.Sublist.refl _
  | b :: l => by
    rw [List.filterMap_cons]
    split
    · exact (map_key_filterMap_sublist l).cons b
    · next x hx =>
      rw [List.map_cons, hkey b x hx]
      exact (map_key_filterMap_sublist l).cons_cons b

theorem nodup_map_key_filterMap {l : List α} (h : l.Nodup) : ((l.filterMap f).map key).Nodup :=
  (map_key_filterMap_sublist hkey l).nodup h

end Entries

end FinMap
