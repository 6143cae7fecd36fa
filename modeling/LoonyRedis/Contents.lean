import LoonyRedis.Collections
import LoonyRedis.SortedSet

/-!
# What the collections contain

The operations on lists, hashes and sets in terms of their contents : the sequence
`toVec`, the map `get` and the set `contains`. The encoding does not matter to them, so
two values with the same contents stay so under every operation.
-/

namespace LoonyRedis

open Std

/-! ## Lists -/

namespace RedisList

@[simp] theorem toVec_new : new.toVec = [] := rfl

@[simp] theorem toVec_map (l : RedisList) (f : List Bytes → List Bytes) :
    (l.map f).toVec = f l.toVec := by
  cases l <;> rfl

@[simp] theorem toVec_fit (l : RedisList) (elem : Bytes) : (l.fit elem).toVec = l.toVec := by
  unfold fit
  split <;> rfl

@[simp] theorem toVec_pushFront (l : RedisList) (val : Bytes) :
    (l.pushFront val).toVec = val :: l.toVec := by
  simp [pushFront]

@[simp] theorem toVec_pushBack (l : RedisList) (val : Bytes) :
    (l.pushBack val).toVec = l.toVec ++ [val] := by
  simp [pushBack]

/-- Pushed at the head one after the other, the values end up reversed. -/
theorem toVec_foldl_pushFront (vals : List Bytes) (l : RedisList) :
    (vals.foldl pushFront l).toVec = vals.reverse ++ l.toVec := by
  induction vals generalizing l with
  | nil => rfl
  | cons v vals ih => simp [ih]

/-- Pushed at the tail one after the other, the values keep their order. -/
theorem toVec_foldl_pushBack (vals : List Bytes) (l : RedisList) :
    (vals.foldl pushBack l).toVec = l.toVec ++ vals := by
  induction vals generalizing l with
  | nil => simp
  | cons v vals ih => simp [ih]

theorem len_eq_zero {l : RedisList} : l.len = 0 ↔ l.toVec = [] := List.length_eq_zero_iff

/-- Nothing is popped only from an empty list. -/
theorem popN_succ_eq_nil {pop : RedisList → Option Bytes × RedisList} {n : ℕ} {l : RedisList} :
    (popN pop (n + 1) l).1 = [] ↔ (pop l).1 = none := by
  unfold popN
  split
  · next heq => simp [heq]
  · next heq => simp [heq]

/-- When a range has no elements. -/
theorem range_eq_nil {l : RedisList} {start stop : ℕ} :
    l.range start stop = [] ↔ min stop l.len ≤ start := by
  simp only [range]
  split
  · next h => exact iff_of_true rfl h
  · next h =>
    refine iff_of_false (fun hnil => h ?_) h
    rw [len] at hnil ⊢
    have hlen := congrArg List.length hnil
    simp only [List.length_take, List.length_drop, List.length_nil] at hlen
    omega

/-- Nothing is dropped if nothing may be, or there is no occurrence. -/
theorem dropVal_fst_eq_zero {val : Bytes} : ∀ {limit : ℕ} {items : List Bytes},
    (dropVal val limit items).1 = 0 ↔ limit = 0 ∨ val ∉ items
  | _, [] => by simp [dropVal]
  | 0, _ :: _ => by simp [dropVal]
  | limit + 1, b :: items => by
    unfold dropVal
    split
    · next hb => simp [hb]
    · next hb => simp [dropVal_fst_eq_zero, Ne.symm hb]

/-- `lrem` finds nothing to remove only if nothing is there. -/
theorem lrem_fst_eq_zero {l : RedisList} {count : Text.I64} {val : Bytes} :
    (l.lrem count val).1 = 0 ↔ val ∉ l.toVec := by
  obtain ⟨n, hlo, hhi⟩ := count
  simp only [Text.i64Min, Text.i64Max] at hlo hhi
  simp only [lrem]
  split
  · next hpos =>
    have hlimit : Text.asUsize n ≠ 0 := by
      simp only [Text.asUsize]
      omega
    simp [dropVal_fst_eq_zero, hlimit]
  · split
    · next hneg =>
      have hlimit : Text.asUsize (Text.wrap (-n)) ≠ 0 := by
        simp only [Text.asUsize, Text.wrap, Int.bmod]
        omega
      simp [dropVal_fst_eq_zero, hlimit]
    · simp only [dropVal_fst_eq_zero, List.length_eq_zero_iff, or_iff_right_iff_imp]
      intro h
      simp [h]

/-- The length after an insertion is not 0, and neither is -1. -/
theorem insertAt_fst_ne_zero (l : RedisList) (n : ℕ) (pivot val : Bytes) :
    (l.insertAt n pivot val).1 ≠ 0 := by
  unfold insertAt
  split
  · simp
  · next pos hpos =>
    have hne : l.toVec ≠ [] := by
      intro hnil
      simp [position, hnil] at hpos
    have hlen := List.length_pos_iff.mpr hne
    simp only [len, toVec_map, toVec_fit, List.length_insertIdx]
    split <;> omega

end RedisList

/-! ## Hashes -/

/-- A filter drops nothing exactly if it keeps all. -/
theorem length_sub_length_filter {α : Type} {l : List α} {keep : α → Bool} :
    l.length - (l.filter keep).length = 0 ↔ ∀ x ∈ l, keep x = true := by
  have hle := List.length_filter_le keep l
  rw [← List.length_filter_eq_length_iff]
  omega

/-- Looking up a key in a list of pairs with distinct keys. -/
theorem find?_eq_some_iff {β : Type} {l : List (Bytes × β)} (hnd : (l.map Prod.fst).Nodup)
    {k : Bytes} {w : β} : (l.find? fun p => p.1 = k).map Prod.snd = some w ↔ (k, w) ∈ l := by
  constructor
  · intro h
    obtain ⟨p, hp, rfl⟩ := Option.map_eq_some_iff.mp h
    have hfst : p.1 = k := by simpa using List.find?_some hp
    rw [← hfst]
    exact List.mem_of_find?_eq_some hp
  · intro h
    have hfind : (l.find? fun p => p.1 = k).isSome = true := by
      rw [List.find?_isSome]
      exact ⟨_, h, by simp⟩
    obtain ⟨p, hp⟩ := Option.isSome_iff_exists.mp hfind
    have hfst : p.1 = k := by simpa using List.find?_some hp
    have hmem := List.mem_of_find?_eq_some hp
    rw [hp, Option.map_some, Option.some.injEq]
    exact congrArg Prod.snd (List.inj_on_of_nodup_map hnd hmem h hfst)

namespace Fields

/-- Each field has one value. -/
theorem mem_iff_find {v : Fields} {field value : Bytes} :
    (field, value) ∈ v.1 ↔ v.find field = some value :=
  (find?_eq_some_iff v.2).symm

theorem find_isSome {v : Fields} {field : Bytes} :
    (v.find field).isSome = true ↔ field ∈ v.1.map Prod.fst := by
  simp [Option.isSome_iff_exists, ← mem_iff_find]

/-- After a field is put, it has its new value, and the others keep theirs. -/
theorem mem_put {v : Fields} {field value : Bytes} {p : Bytes × Bytes} :
    p ∈ (v.put field value).1 ↔ p = (field, value) ∨ p.1 ≠ field ∧ p ∈ v.1 := by
  unfold put
  split
  · next h =>
    obtain ⟨⟨f, w⟩, hq, rfl⟩ := List.mem_map.mp h
    simp only [List.mem_map]
    constructor
    · rintro ⟨r, hr, rfl⟩
      by_cases hf : r.1 = f <;> simp [hf, hr]
    · rintro (rfl | ⟨hne, hp⟩)
      · exact ⟨_, hq, by simp⟩
      · exact ⟨p, hp, by simp [hne]⟩
  · next h =>
    have hne : p ∈ v.1 → p.1 ≠ field := fun hp heq => h (heq ▸ List.mem_map_of_mem hp)
    simp only [List.mem_append, List.mem_singleton]
    grind

/-- A field that was put is found with its new value. -/
theorem find_put {v : Fields} {field value f : Bytes} :
    (v.put field value).find f = if field = f then some value else v.find f := by
  ext w
  rw [← mem_iff_find, mem_put]
  split
  · next h => simp [h, eq_comm]
  · next h => simp [Ne.symm h, mem_iff_find]

/-- The fields that were kept have their values. -/
theorem find_retain {v : Fields} {keep : Bytes → Bool} {f : Bytes} :
    (v.retain keep).find f = if keep f then v.find f else none := by
  ext w
  rw [← mem_iff_find, retain, List.mem_filter]
  split
  · next h => simp [h, mem_iff_find]
  · next h => simp [h]

end Fields

namespace RedisHash

@[simp] theorem get_new (field : Bytes) : new.get field = none := rfl

/-- A table into which pairs with distinct fields were inserted. -/
theorem getElem?_foldl_insert : ∀ (l : List (Bytes × Bytes)) (m : ExtTreeMap Bytes Bytes compare)
    (f : Bytes), (l.map Prod.fst).Nodup →
      (l.foldl (fun m p => m.insert p.1 p.2) m)[f]? =
        ((l.find? fun p => p.1 = f).map Prod.snd).or m[f]?
  | [], m, f, _ => rfl
  | (g, w) :: l, m, f, hnd => by
    rw [List.map_cons, List.nodup_cons] at hnd
    rw [List.foldl_cons, getElem?_foldl_insert l _ f hnd.2, FinMap.getElem?_insert]
    by_cases hg : g = f
    · have hnone : (l.find? fun p => p.1 = f) = none := by
        rw [List.find?_eq_none]
        intro p hp heq
        have hfst : p.1 = g := (of_decide_eq_true heq).trans hg.symm
        exact hnd.1 (List.mem_map.mpr ⟨p, hp, hfst⟩)
      simp [hg, hnone]
    · simp [hg]

/-- The encoding does not change what a hash holds. -/
theorem get_promote (h : RedisHash) (field : Bytes) : h.promote.get field = h.get field := by
  cases h with
  | small v =>
    simp only [promote, get, getElem?_foldl_insert _ _ _ v.2, Fields.find]
    simp
  | large m => rfl

/-- A field is there if it has a value. -/
theorem contains_eq (h : RedisHash) (field : Bytes) : h.contains field = (h.get field).isSome := by
  cases h with
  | small v =>
    rw [Bool.eq_iff_iff, get, Fields.find_isSome]
    simp [contains]
  | large m => exact ExtTreeMap.contains_eq_isSome_getElem?

/-- A field that was set has its new value. -/
theorem get_hset (h : RedisHash) (field value f : Bytes) :
    (h.hset field value).2.get f = if field = f then some value else h.get f := by
  have hfit : (if h.needsPromote field value then h.promote else h).get f = h.get f := by
    split
    · exact get_promote h f
    · rfl
  unfold hset
  rw [← hfit]
  split
  · next v heq => rw [heq]; exact Fields.find_put
  · next m heq => rw [heq]; exact FinMap.getElem?_insert

/-- A field that is there keeps its value. -/
theorem get_hsetnx (h : RedisHash) (field value f : Bytes) :
    (h.hsetnx field value).2.get f = if field = f then some ((h.get f).getD value) else h.get f := by
  unfold hsetnx
  rw [contains_eq]
  split
  · next hsome =>
    obtain ⟨w, hw⟩ := Option.isSome_iff_exists.mp hsome
    split
    · next heq => rw [← heq, hw]; rfl
    · rfl
  · next hnone =>
    rw [Bool.not_eq_true, Option.isSome_eq_false_iff, Option.isNone_iff_eq_none] at hnone
    rw [get_hset]
    split
    · next heq => rw [← heq, hnone]; rfl
    · rfl

/-- What is removed from a table, and when it is nothing. -/
theorem removeAll_spec : ∀ (fields : List Bytes) (m : ExtTreeMap Bytes Bytes compare),
    ((removeAll m fields).1 = 0 ↔ ∀ f ∈ fields, m[f]? = none) ∧
      ∀ f, (removeAll m fields).2[f]? = if f ∈ fields then none else m[f]?
  | [], m => by simp [removeAll]
  | g :: fields, m => by
    obtain ⟨hfst, hsnd⟩ := removeAll_spec fields (m.erase g)
    constructor
    · simp only [removeAll, Nat.add_eq_zero_iff, hfst, FinMap.getElem?_erase, List.mem_cons,
        forall_eq_or_imp, ExtTreeMap.contains_eq_isSome_getElem?]
      cases hg : m[g]? with
      | some w => simp
      | none =>
        simp only [Option.isSome_none, Bool.false_eq_true, if_false, true_and]
        refine forall₂_congr fun f _ => ?_
        split
        · next heq => simp [← heq, hg]
        · rfl
    · intro f
      simp only [removeAll, hsnd, FinMap.getElem?_erase, List.mem_cons]
      grind

/-- The fields that were removed have no value. -/
theorem get_hdel (h : RedisHash) (fields : List Bytes) (f : Bytes) :
    (h.hdel fields).2.get f = if f ∈ fields then none else h.get f := by
  cases h with
  | small v => simp [hdel, get, Fields.find_retain]
  | large m => exact (removeAll_spec fields m).2 f

/-- Nothing is removed if none of the fields is there. -/
theorem hdel_fst_eq_zero {h : RedisHash} {fields : List Bytes} :
    (h.hdel fields).1 = 0 ↔ ∀ f ∈ fields, h.get f = none := by
  cases h with
  | small v =>
    rw [hdel, Fields.retain, length_sub_length_filter]
    simp only [get, List.contains_eq_mem, Bool.not_eq_true', decide_eq_false_iff_not, Prod.forall,
      Option.eq_none_iff_forall_ne_some, ne_eq, Fields.mem_iff_find]
    grind
  | large m => exact (removeAll_spec fields m).1

/-- The listing has each field with its value. -/
theorem mem_allPairs {env : Env} {h : RedisHash} {field value : Bytes} :
    (field, value) ∈ h.allPairs env ↔ h.get field = some value := by
  cases h with
  | small v => exact Fields.mem_iff_find
  | large m =>
    rw [allPairs, (env.pairOrder_perm _).mem_iff, ExtTreeMap.mem_toList_iff_getElem?_eq_some, get]

/-- The listing has each field once. -/
theorem nodup_allPairs (env : Env) (h : RedisHash) : ((h.allPairs env).map Prod.fst).Nodup := by
  cases h with
  | small v => exact v.2
  | large m =>
    exact ((env.pairOrder_perm _).map Prod.fst).nodup_iff.mpr FinMap.nodup_keys_toList

/-- The listing is as long as the hash has fields. -/
theorem length_allPairs (env : Env) (h : RedisHash) : (h.allPairs env).length = h.len := by
  cases h with
  | small v => rfl
  | large m => rw [allPairs, (env.pairOrder_perm _).length_eq, ExtTreeMap.length_toList, len]

/-- How many fields there are depends only on what they hold. -/
theorem len_congr {a b : RedisHash} (h : a.get = b.get) : a.len = b.len := by
  rw [← length_allPairs (.plain 0) a, ← length_allPairs (.plain 0) b]
  have hnodup (c : RedisHash) : (c.allPairs (.plain 0)).Nodup :=
    (nodup_allPairs (.plain 0) c).of_map Prod.fst
  refine ((List.perm_ext_iff_of_nodup (hnodup a) (hnodup b)).mpr fun p => ?_).length_eq
  rw [mem_allPairs, mem_allPairs, h]

/-- A field counts as new if it had no value. -/
theorem hset_fst (h : RedisHash) (field value : Bytes) :
    (h.hset field value).1 = if (h.get field).isSome then 0 else 1 := by
  have hfit : (if h.needsPromote field value then h.promote else h).get field = h.get field := by
    split
    · exact get_promote h field
    · rfl
  unfold hset
  rw [← hfit, ← contains_eq]
  split
  · next v heq =>
    rw [heq]
    by_cases hmem : field ∈ v.1.map Prod.fst <;> simp [contains, hmem]
  · next m heq =>
    rw [heq]
    simp [contains]

/-- The fields that were removed and those that are left add up. -/
theorem removeAll_fst_add : ∀ (fields : List Bytes) (m : ExtTreeMap Bytes Bytes compare),
    (removeAll m fields).1 + (removeAll m fields).2.size = m.size
  | [], m => by simp [removeAll]
  | f :: fields, m => by
    have ih := removeAll_fst_add fields (m.erase f)
    have hsize := ExtTreeMap.size_erase (t := m) (k := f)
    simp only [removeAll]
    by_cases hf : m.contains f = true
    · have hpos : 0 < m.size := by
        rw [Nat.pos_iff_ne_zero]
        intro hzero
        rw [ExtTreeMap.eq_empty_iff_size_eq_zero.mpr hzero] at hf
        simp at hf
      simp only [hf, if_true] at hsize ⊢
      omega
    · simp only [hf, if_false, Bool.false_eq_true] at hsize ⊢
      omega

/-- What is deleted and what is left. -/
theorem hdel_fst_add (h : RedisHash) (fields : List Bytes) :
    (h.hdel fields).1 + (h.hdel fields).2.len = h.len := by
  cases h with
  | small v =>
    have hle : (v.retain fun f => !fields.contains f).1.length ≤ v.1.length :=
      List.length_filter_le ..
    simp only [hdel, len]
    omega
  | large m => exact removeAll_fst_add fields m

/-- An empty hash has an empty listing. -/
theorem allPairs_eq_nil {env : Env} {h : RedisHash} : h.allPairs env = [] ↔ h.len = 0 := by
  rw [← length_allPairs env, List.length_eq_zero_iff]

end RedisHash

/-! ## Sets -/

namespace RedisSet

@[simp] theorem contains_new (m : Bytes) : new.contains m = false := rfl

/-- The members of a table into which a list was inserted. -/
theorem mem_foldl_insert {l : List Bytes} {t : ExtTreeSet Bytes compare} {m : Bytes} :
    m ∈ l.foldl (fun t m => t.insert m) t ↔ m ∈ l ∨ m ∈ t := by
  induction l generalizing t with
  | nil => simp
  | cons x l ih =>
    rw [List.foldl_cons, ih, FinMap.mem_insert, List.mem_cons]
    grind

/-- The members of a table from which a list was erased. -/
theorem mem_foldl_erase {l : List Bytes} {t : ExtTreeSet Bytes compare} {m : Bytes} :
    m ∈ l.foldl (fun t m => t.erase m) t ↔ m ∉ l ∧ m ∈ t := by
  induction l generalizing t with
  | nil => simp
  | cons x l ih =>
    rw [List.foldl_cons, ih, FinMap.mem_erase, List.mem_cons]
    grind

/-- The encoding does not change what a set holds. -/
theorem contains_promote (t : RedisSet) (m : Bytes) : t.promote.contains m = t.contains m := by
  cases t with
  | small v =>
    have hmem : m ∈ v.1.foldl (fun t m => t.insert m) (∅ : ExtTreeSet Bytes compare) ↔ m ∈ v.1 := by
      simp [mem_foldl_insert]
    rw [Bool.eq_iff_iff]
    simpa only [promote, contains, ← ExtTreeSet.mem_iff_contains, List.contains_iff_mem] using hmem
  | large t => rfl

/-- A member that was added is there, with the others. -/
theorem contains_addOne {t : RedisSet} {m x : Bytes} :
    (t.addOne m).2.contains x = true ↔ x = m ∨ t.contains x = true := by
  have hfit : (if t.needsPromote m then t.promote else t).contains x = t.contains x := by
    split
    · exact contains_promote t x
    · rfl
  unfold addOne
  rw [← hfit]
  split
  · next v heq =>
    simp only [heq, contains, Members.push, List.contains_iff_mem]
    split <;> grind
  · next t heq =>
    simp only [heq, contains, ← ExtTreeSet.mem_iff_contains, FinMap.mem_insert]
    grind

/-- The members that were added are there, with the others. -/
theorem contains_sadd {ms : List Bytes} {t : RedisSet} {x : Bytes} :
    (t.sadd ms).2.contains x = true ↔ x ∈ ms ∨ t.contains x = true := by
  induction ms generalizing t with
  | nil => simp [sadd]
  | cons m ms ih =>
    rw [sadd, ih, contains_addOne, List.mem_cons]
    grind

/-- What is removed from a table, and when it is nothing. -/
theorem removeAll_spec : ∀ (ms : List Bytes) (t : ExtTreeSet Bytes compare),
    ((removeAll t ms).1 = 0 ↔ ∀ m ∈ ms, m ∉ t) ∧
      ∀ m, m ∈ (removeAll t ms).2 ↔ m ∉ ms ∧ m ∈ t
  | [], t => by simp [removeAll]
  | g :: ms, t => by
    obtain ⟨hfst, hsnd⟩ := removeAll_spec ms (t.erase g)
    constructor
    · simp only [removeAll, Nat.add_eq_zero_iff, hfst, FinMap.mem_erase, List.mem_cons,
        forall_eq_or_imp, ← ExtTreeSet.mem_iff_contains]
      by_cases hg : g ∈ t
      · simp [hg]
      · simp only [hg, if_false, not_false_eq_true, true_and]
        refine forall₂_congr fun m _ => ?_
        grind
    · intro m
      simp only [removeAll, hsnd, FinMap.mem_erase, List.mem_cons]
      grind

/-- The members that were removed are gone. -/
theorem contains_srem {t : RedisSet} {ms : List Bytes} {x : Bytes} :
    (t.srem ms).2.contains x = true ↔ x ∉ ms ∧ t.contains x = true := by
  cases t with
  | small v =>
    simp only [srem, contains, Members.retain, List.contains_iff_mem, List.mem_filter]
    grind
  | large t => exact (removeAll_spec ms t).2 x

/-- Nothing is removed if none of the members is there. -/
theorem srem_fst_eq_zero {t : RedisSet} {ms : List Bytes} :
    (t.srem ms).1 = 0 ↔ ∀ m ∈ ms, t.contains m = false := by
  cases t with
  | small v =>
    rw [srem, Members.retain, length_sub_length_filter]
    simp only [contains, List.contains_eq_mem, Bool.not_eq_true', decide_eq_false_iff_not]
    grind
  | large t =>
    rw [srem, (removeAll_spec ms t).1]
    simp only [contains, ExtTreeSet.mem_iff_contains, Bool.not_eq_true]

/-- A member is removed if it was there. -/
theorem removeOne_fst (t : RedisSet) (m : Bytes) : (t.removeOne m).1 = t.contains m := by
  cases t with
  | small v =>
    by_cases hm : m ∈ v.1
    · simp [removeOne, contains, hm, List.idxOf_lt_length_iff]
    · simp [removeOne, contains, hm]
  | large t => rfl

/-- Only the removed member is gone. -/
theorem contains_removeOne {t : RedisSet} {m x : Bytes} :
    (t.removeOne m).2.contains x = true ↔ x ≠ m ∧ t.contains x = true := by
  cases t with
  | small v =>
    simp only [removeOne]
    split
    · next hidx =>
      have hperm := swapRemove_perm_eraseIdx hidx
      simp only [contains, Members.removeAt, List.contains_iff_mem]
      rw [hperm.mem_iff, ← List.erase_eq_eraseIdx_of_idxOf rfl, v.2.mem_erase_iff]
    · next hidx =>
      have hm : m ∉ v.1 := fun hm => hidx (List.idxOf_lt_length_iff.mpr hm)
      simp only [contains, List.contains_iff_mem]
      grind
  | large t =>
    simp only [removeOne, contains, ← ExtTreeSet.mem_iff_contains, FinMap.mem_erase]
    grind

/-- The listing has the members. -/
theorem mem_members {env : Env} {t : RedisSet} {m : Bytes} :
    m ∈ t.members env ↔ t.contains m = true := by
  cases t with
  | small v => simp [members, contains]
  | large t =>
    rw [members, (env.memberOrder_perm _).mem_iff, ExtTreeSet.mem_toList, contains,
      ExtTreeSet.mem_iff_contains]

/-- The listing is as long as the set has members. -/
theorem length_members (env : Env) (t : RedisSet) : (t.members env).length = t.len := by
  cases t with
  | small v => rfl
  | large t => rw [members, (env.memberOrder_perm _).length_eq, ExtTreeSet.length_toList, len]

/-- The listing has each member once. -/
theorem nodup_members (env : Env) (t : RedisSet) : (t.members env).Nodup := by
  cases t with
  | small v => exact v.2
  | large t => exact (env.memberOrder_perm _).nodup_iff.mpr FinMap.nodup_toList

/-- The members of sets that contain the same, in two orders. -/
theorem members_perm {a b : RedisSet} (h : a.contains = b.contains) (env env' : Env) :
    (a.members env).Perm (b.members env') :=
  (List.perm_ext_iff_of_nodup (nodup_members env a) (nodup_members env' b)).mpr fun m => by
    rw [mem_members, mem_members, h]

/-- Sets with the same members have as many of them. -/
theorem len_congr {a b : RedisSet} (h : a.contains = b.contains) : a.len = b.len := by
  rw [← length_members (.plain 0) a, ← length_members (.plain 0) b]
  exact (members_perm h _ _).length_eq

/-- A member counts as new if it was not there. -/
theorem addOne_fst (t : RedisSet) (m : Bytes) :
    (t.addOne m).1 = if t.contains m then 0 else 1 := by
  have hfit : (if t.needsPromote m then t.promote else t).contains m = t.contains m := by
    split
    · exact contains_promote t m
    · rfl
  unfold addOne
  rw [← hfit]
  split
  · next v heq => simp only [heq, contains]
  · next t heq => simp only [heq, contains]

/-- How many members are new depends only on what the set contains. -/
theorem sadd_fst_congr : ∀ (ms : List Bytes) {a b : RedisSet}, a.contains = b.contains →
    (a.sadd ms).1 = (b.sadd ms).1
  | [], _, _, _ => rfl
  | m :: ms, a, b, h => by
    have hadd : (a.addOne m).2.contains = (b.addOne m).2.contains := by
      ext x : 1
      rw [Bool.eq_iff_iff, contains_addOne, contains_addOne, h]
    rw [sadd, sadd, addOne_fst, addOne_fst, h, sadd_fst_congr ms hadd]

/-- The members that were removed and those that are left add up. -/
theorem removeAll_fst_add : ∀ (ms : List Bytes) (t : ExtTreeSet Bytes compare),
    (removeAll t ms).1 + (removeAll t ms).2.size = t.size
  | [], t => by simp [removeAll]
  | m :: ms, t => by
    have ih := removeAll_fst_add ms (t.erase m)
    have hsize := ExtTreeSet.size_erase (t := t) (k := m)
    simp only [removeAll]
    by_cases hm : t.contains m = true
    · have hpos : 0 < t.size := by
        rw [Nat.pos_iff_ne_zero]
        intro hzero
        rw [ExtTreeSet.eq_empty_iff_size_eq_zero.mpr hzero] at hm
        simp at hm
      simp only [hm, if_true] at hsize ⊢
      omega
    · simp only [hm, if_false, Bool.false_eq_true] at hsize ⊢
      omega

/-- What is removed and what is left. -/
theorem srem_fst_add (t : RedisSet) (ms : List Bytes) :
    (t.srem ms).1 + (t.srem ms).2.len = t.len := by
  cases t with
  | small v =>
    have hle : (v.retain fun m => !ms.contains m).1.length ≤ v.1.length := List.length_filter_le ..
    simp only [srem, len]
    omega
  | large t => exact removeAll_fst_add ms t

/-- An empty set has an empty listing. -/
theorem members_eq_nil {env : Env} {t : RedisSet} : t.members env = [] ↔ t.len = 0 := by
  rw [← length_members env, List.length_eq_zero_iff]

theorem mem_toHashset {t : RedisSet} {m : Bytes} : m ∈ t.toHashset ↔ t.contains m = true := by
  cases t with
  | small v => simp [toHashset, mem_foldl_insert, contains]
  | large t => exact ExtTreeSet.mem_iff_contains

theorem mem_items {t : RedisSet} {m : Bytes} : m ∈ t.items ↔ t.contains m = true := by
  cases t with
  | small v => simp [items, contains]
  | large t => rw [items, ExtTreeSet.mem_toList, contains, ExtTreeSet.mem_iff_contains]

/-- The members of a union. -/
theorem mem_unionWith {t : RedisSet} {ts : List RedisSet} {m : Bytes} :
    m ∈ t.unionWith ts ↔ t.contains m = true ∨ ∃ u ∈ ts, u.contains m = true := by
  have hfold (ts : List RedisSet) (r : ExtTreeSet Bytes compare) :
      m ∈ ts.foldl (fun r u => u.items.foldl (fun r m => r.insert m) r) r ↔
        m ∈ r ∨ ∃ u ∈ ts, u.contains m = true := by
    induction ts generalizing r with
    | nil => simp
    | cons u ts ih =>
      rw [List.foldl_cons, ih, mem_foldl_insert, mem_items]
      simp only [List.mem_cons, exists_eq_or_imp]
      tauto
  rw [unionWith, hfold, mem_toHashset]

theorem mem_intersectWith {t : RedisSet} {ts : List RedisSet} {m : Bytes} :
    m ∈ t.intersectWith ts ↔ t.contains m = true ∧ ∀ u ∈ ts, u.contains m = true := by
  have hfold (ts : List RedisSet) (r : ExtTreeSet Bytes compare) :
      m ∈ ts.foldl (fun r u => r.filter fun m => u.toHashset.contains m) r ↔
        m ∈ r ∧ ∀ u ∈ ts, u.contains m = true := by
    induction ts generalizing r with
    | nil => simp
    | cons u ts ih =>
      rw [List.foldl_cons, ih, FinMap.mem_filter, ← ExtTreeSet.mem_iff_contains, mem_toHashset,
        List.forall_mem_cons, and_assoc]
  rw [intersectWith, hfold, mem_toHashset]

theorem mem_diffWith {t : RedisSet} {ts : List RedisSet} {m : Bytes} :
    m ∈ t.diffWith ts ↔ t.contains m = true ∧ ∀ u ∈ ts, u.contains m = false := by
  have hfold (ts : List RedisSet) (r : ExtTreeSet Bytes compare) :
      m ∈ ts.foldl (fun r u => u.items.foldl (fun r m => r.erase m) r) r ↔
        m ∈ r ∧ ∀ u ∈ ts, u.contains m = false := by
    induction ts generalizing r with
    | nil => simp
    | cons u ts ih =>
      rw [List.foldl_cons, ih, mem_foldl_erase, mem_items]
      simp only [List.forall_mem_cons, Bool.not_eq_true]
      tauto
  rw [diffWith, hfold, mem_toHashset]

theorem randomMembers_eq_nil {env : Env} {t : RedisSet} {count : Text.I64} :
    t.randomMembers env count = [] ↔ t.len = 0 ∨ count.1 = 0 := by
  obtain ⟨n, hlo, hhi⟩ := count
  simp only [Text.i64Min, Text.i64Max] at hlo hhi
  have hshuffle (l : List Bytes) : (env.shuffle l).length = l.length := (env.shuffle_perm l).length_eq
  simp only [randomMembers, members_eq_nil]
  split
  · next h => simp [h]
  · next h =>
    split
    · next hpos =>
      rw [← List.length_eq_zero_iff, List.length_take, hshuffle, length_members]
      simp only [Text.asUsize] at *
      omega
    · next hneg =>
      rw [← List.length_eq_zero_iff, List.length_map, List.length_range]
      simp only [Text.asUsize, Text.wrap, Int.bmod] at *
      omega

theorem spop_fst_eq_nil {env : Env} {t : RedisSet} {count : ℕ} :
    (t.spop env count).1 = [] ↔ t.len = 0 ∨ count = 0 := by
  have hshuffle (l : List Bytes) : (env.shuffle l).length = l.length := (env.shuffle_perm l).length_eq
  simp only [spop, members_eq_nil]
  split
  · next h => simp [h]
  · next h =>
    simp only
    rw [← List.length_eq_zero_iff, List.length_take, hshuffle, length_members]
    omega

theorem contains_removeEach : ∀ {ms : List Bytes} {t : RedisSet} {x : Bytes},
    (t.removeEach ms).contains x = true ↔ x ∉ ms ∧ t.contains x = true
  | [], _, _ => by simp [removeEach]
  | m :: ms, t, x => by
    rw [removeEach, contains_removeEach, contains_removeOne, List.mem_cons]
    grind

/-- A shuffle of at most one member, and a pop of none, leave nothing to chance. -/
theorem spop_congr {a b : RedisSet} (h : a.contains = b.contains) {count : ℕ}
    (hfew : count = 0 ∨ a.len < 2) (env env' : Env) :
    (a.spop env count).1 = (b.spop env' count).1 ∧
      (a.spop env count).2.contains = (b.spop env' count).2.contains := by
  have hperm := members_perm h env env'
  have hnil : a.members env = [] ↔ b.members env' = [] := by
    rw [members_eq_nil, members_eq_nil, len_congr h]
  by_cases hempty : a.members env = []
  · simp only [spop, if_pos hempty, if_pos (hnil.mp hempty), true_and]
    exact h
  · have hpop : (env.shuffle (a.members env)).take (min count (a.members env).length) =
        (env'.shuffle (b.members env')).take (min count (b.members env').length) := by
      rcases hfew with rfl | hlen
      · simp
      · obtain ⟨x, hx⟩ : ∃ x, a.members env = [x] := by
          rw [← List.length_eq_one_iff, length_members]
          have hpos : a.len ≠ 0 := fun hzero => hempty (members_eq_nil.mpr hzero)
          omega
        have hx' : b.members env' = [x] := List.perm_singleton.mp (hx ▸ hperm.symm)
        have hs := List.perm_singleton.mp (env.shuffle_perm [x])
        have hs' := List.perm_singleton.mp (env'.shuffle_perm [x])
        rw [hx, hx', hs, hs']
    simp only [spop, if_neg hempty, if_neg (hnil.not.mp hempty), hpop, true_and]
    ext x : 1
    rw [Bool.eq_iff_iff, contains_removeEach, contains_removeEach, h]

end RedisSet

/-! ## Sorted sets -/

namespace ZSet

theorem scores_put {z : ZSet} {member m : Bytes} {score : F64} :
    (z.put member score).scores[m]? = if member = m then some score else z.scores[m]? :=
  FinMap.getElem?_insert

theorem scores_remove {z : ZSet} {member m : Bytes} :
    (z.remove member).scores[m]? = if member = m then none else z.scores[m]? :=
  FinMap.getElem?_erase

theorem mem_byScore {z : ZSet} {k : ScoreKey} :
    k ∈ z.byScore ↔ ∃ score, z.scores[k.member]? = some score ∧ encodeScore score = k.encoded := by
  rw [z.agree, Option.map_eq_some_iff]

theorem mem_keys_iff {z : ZSet} {m : Bytes} :
    m ∈ z.byScore.toList.map ScoreKey.member ↔ m ∈ z.scores.keys := by
  rw [ExtTreeMap.mem_keys, ExtTreeMap.mem_iff_isSome_getElem?, List.mem_map]
  constructor
  · rintro ⟨k, hk, rfl⟩
    obtain ⟨score, hs, -⟩ := mem_byScore.mp (ExtTreeSet.mem_toList.mp hk)
    simp [hs]
  · intro h
    obtain ⟨score, hs⟩ := Option.isSome_iff_exists.mp h
    exact ⟨ScoreKey.new score m, ExtTreeSet.mem_toList.mpr (mem_byScore.mpr ⟨score, hs, rfl⟩), rfl⟩

theorem nodup_members (z : ZSet) : (z.byScore.toList.map ScoreKey.member).Nodup := by
  refine List.Nodup.map_on (fun j hj k hk heq => ?_) FinMap.nodup_toList
  obtain ⟨x, hx, hjx⟩ := mem_byScore.mp (ExtTreeSet.mem_toList.mp hj)
  obtain ⟨y, hy, hky⟩ := mem_byScore.mp (ExtTreeSet.mem_toList.mp hk)
  rw [heq, hy, Option.some.injEq] at hx
  cases j
  cases k
  simp_all

theorem length_byScore (z : ZSet) : z.byScore.toList.length = z.len := by
  rw [← List.length_map ScoreKey.member, len, ← ExtTreeMap.length_keys]
  exact ((List.perm_ext_iff_of_nodup z.nodup_members ExtTreeMap.nodup_keys).mpr
    fun _ => mem_keys_iff).length_eq

/-- Removing the member of a key of the tree. -/
theorem len_remove {z : ZSet} {k : ScoreKey} (hk : k ∈ z.byScore) :
    (z.remove k.member).len + 1 = z.len := by
  have hmem : z.scores.contains k.member = true := by
    rw [ExtTreeMap.contains_eq_isSome_getElem?, ← Option.isSome_map, (z.agree k).mp hk]
    rfl
  have hpos : 0 < z.scores.size := by
    change 0 < z.len
    rw [← length_byScore]
    exact List.length_pos_of_mem (ExtTreeSet.mem_toList.mpr hk)
  rw [len, remove, ExtTreeMap.size_erase, if_pos hmem, len]
  omega

theorem length_allWithScores (z : ZSet) : z.allWithScores.length = z.len := by
  rw [allWithScores, List.length_map, length_byScore]

theorem mem_allWithScores {z : ZSet} {m : Bytes} {x : F64} :
    (m, x) ∈ z.allWithScores ↔ z.scores[m]? = some x := by
  rw [allWithScores, List.mem_map]
  constructor
  · rintro ⟨k, hk, heq⟩
    obtain ⟨score, hs, henc⟩ := mem_byScore.mp (ExtTreeSet.mem_toList.mp hk)
    rw [Prod.mk.injEq] at heq
    obtain ⟨rfl, rfl⟩ := heq
    rw [hs, ScoreKey.score, ← henc, decodeScore_encodeScore]
  · intro h
    refine ⟨ScoreKey.new x m, ExtTreeSet.mem_toList.mpr (mem_byScore.mpr ⟨x, h, rfl⟩), ?_⟩
    rw [ScoreKey.score, ScoreKey.new, decodeScore_encodeScore]

theorem nodup_allWithScores (z : ZSet) : (z.allWithScores.map Prod.fst).Nodup := by
  rw [allWithScores, List.map_map]
  exact z.nodup_members

theorem isSome_of_mem {z : ZSet} {p : Bytes × F64} (h : p ∈ z.allWithScores) :
    (z.scores[p.1]?).isSome = true := by
  rw [mem_allWithScores.mp h]
  rfl

theorem zrem_spec : ∀ (ms : List Bytes) (z : ZSet),
    ((z.zrem ms).1 = 0 ↔ ∀ m ∈ ms, z.scores[m]? = none) ∧
      ∀ m, (z.zrem ms).2.scores[m]? = if m ∈ ms then none else z.scores[m]?
  | [], z => by simp [zrem]
  | g :: ms, z => by
    obtain ⟨hfst, hsnd⟩ := zrem_spec ms (z.remove g)
    constructor
    · simp only [zrem, Nat.add_eq_zero_iff, hfst, scores_remove, List.mem_cons,
        forall_eq_or_imp, ExtTreeMap.contains_eq_isSome_getElem?]
      cases hg : z.scores[g]? with
      | some w => simp
      | none =>
        simp only [Option.isSome_none, Bool.false_eq_true, if_false, true_and]
        refine forall₂_congr fun m _ => ?_
        split
        · next heq => simp [← heq, hg]
        · rfl
    · intro m
      simp only [zrem, hsnd, scores_remove, List.mem_cons]
      grind

theorem zrangeByRank_eq_nil {z : ZSet} {start stop : ℤ} {rev : Bool} :
    z.zrangeByRank start stop rev = [] ↔
      min (Text.window z.len start stop).2 z.len ≤ (Text.window z.len start stop).1 := by
  have hlen := z.length_allWithScores
  simp only [zrangeByRank]
  split
  · next h => exact iff_of_true rfl (Nat.le_trans (Nat.min_le_left _ _) h)
  · next h =>
    have hnil : (if rev then ((z.allWithScores.drop (Text.window z.len start stop).1).take
          ((Text.window z.len start stop).2 - (Text.window z.len start stop).1)).reverse
        else (z.allWithScores.drop (Text.window z.len start stop).1).take
          ((Text.window z.len start stop).2 - (Text.window z.len start stop).1)) = [] ↔
        (z.allWithScores.drop (Text.window z.len start stop).1).take
          ((Text.window z.len start stop).2 - (Text.window z.len start stop).1) = [] := by
      cases rev <;> simp
    rw [hnil, ← List.length_eq_zero_iff, List.length_take, List.length_drop, hlen]
    omega

theorem zrangebyscore_eq_nil {z : ZSet} {lo hi : ScoreBound} {offset : ℕ} {limit : Option ℕ}
    {rev : Bool} : z.zrangebyscore lo hi offset limit rev = [] ↔
      z.zcount lo hi ≤ offset ∨ limit = some 0 := by
  have hlen : (if rev then (z.inRange lo hi).reverse else z.inRange lo hi).length =
      z.zcount lo hi := by
    cases rev <;> simp [zcount]
  simp only [zrangebyscore]
  cases limit with
  | some n =>
    rw [← List.length_eq_zero_iff, List.length_take, List.length_drop, hlen, Option.some.injEq]
    omega
  | none =>
    rw [← List.length_eq_zero_iff, List.length_drop, hlen]
    simp only [reduceCtorEq, or_false]
    omega

theorem zpop_eq_nil {pick : ZSet → Option ScoreKey} {n : ℕ} {z : ZSet} :
    (zpop pick n z).1 = [] ↔ n = 0 ∨ pick z = none := by
  cases n with
  | zero => simp [zpop]
  | succ n =>
    unfold zpop
    split
    · next heq => simp [heq]
    · next heq => simp [heq]

theorem byScore_eq_empty {z : ZSet} : z.byScore = ∅ ↔ z.len = 0 := by
  rw [← length_byScore, List.length_eq_zero_iff, ExtTreeSet.toList_eq_nil_iff]

theorem zremrangebyrank_fst_eq_zero {z : ZSet} {start stop : ℤ} :
    (z.zremrangebyrank start stop).1 = 0 ↔
      min (Text.window z.len start stop).2 z.len ≤ (Text.window z.len start stop).1 := by
  rw [zremrangebyrank, (zrem_spec _ z).1, ← @zrangeByRank_eq_nil z start stop false]
  constructor
  · intro h
    by_contra hne
    obtain ⟨p, hp⟩ := List.exists_mem_of_ne_nil _ hne
    have hmem : p ∈ z.allWithScores := by
      simp only [zrangeByRank] at hp
      split at hp
      · cases hp
      · exact List.mem_of_mem_drop (List.mem_of_mem_take hp)
    have hnone := h p.1 (List.mem_map_of_mem hp)
    simpa [hnone] using isSome_of_mem hmem
  · intro h
    simp [h]

end ZSet

end LoonyRedis
