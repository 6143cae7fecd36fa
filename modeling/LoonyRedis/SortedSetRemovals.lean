import LoonyRedis.SortedSetOrder
import Mathlib.Data.List.Dedup

/-!
# Removals from a sorted set

Each removal takes members out of both indexes, one after the other. What it leaves is the list of
the entries without those that the reads report, in their order (`allWithScores_of_scores`) : the
ends of the list for the pops, a window or the entries within bounds for the ranges, and the entries
of the listed members for `zrem`. The counts are those of the entries that were removed
(`ZSet.removalsAgree`).
-/

namespace LoonyRedis

open Std

namespace ZSet

variable {z w : ZSet} {m : Bytes} {x : F64}

theorem keyOf_injective : Function.Injective keyOf := by
  rintro ⟨m, x⟩ ⟨m', x'⟩ h
  obtain ⟨hscore, hmember⟩ := ScoreKey.mk.inj h
  exact Prod.ext hmember (encodeScore_injective hscore)

/-- The scores that are left give the entries that are left. -/
theorem allWithScores_of_scores {p : Bytes → Bool}
    (h : ∀ m, w.scores[m]? = if p m then z.scores[m]? else none) :
    w.allWithScores = z.allWithScores.filter fun q => p q.1 := by
  refine keyOf_injective.list_map ?_
  refine FinMap.eq_of_pairwise_lt (List.pairwise_map.mpr w.pairwise_keyOf)
    (List.pairwise_map.mpr (z.pairwise_keyOf.filter _)) fun k => ?_
  simp only [List.mem_map, List.mem_filter]
  refine exists_congr fun q => and_congr_left fun _ => ?_
  obtain ⟨m, x⟩ := q
  rw [mem_allWithScores, mem_allWithScores, h m]
  cases p m <;> simp

theorem allWithScores_remove (z : ZSet) (m : Bytes) :
    (z.remove m).allWithScores = z.allWithScores.filter fun q => q.1 ≠ m := by
  refine allWithScores_of_scores (p := fun m' => m' ≠ m) fun m' => ?_
  rw [scores_remove]
  by_cases hm : m = m'
  · simp [hm]
  · simp [hm, Ne.symm hm]

/-! ## Pops -/

/-- The rest of the list does not have the member of its first entry. -/
theorem allWithScores_remove_head {q : Bytes × F64} {l : List (Bytes × F64)}
    (h : z.allWithScores = q :: l) : (z.remove q.1).allWithScores = l := by
  have hnodup := z.nodup_allWithScores
  rw [h, List.map_cons, List.nodup_cons] at hnodup
  rw [allWithScores_remove, h, List.filter_cons_of_neg (by simp)]
  refine List.filter_eq_self.mpr fun p hp => decide_eq_true fun heq => ?_
  exact hnodup.1 (heq ▸ List.mem_map_of_mem hp)

theorem allWithScores_remove_last {q : Bytes × F64} {l : List (Bytes × F64)}
    (h : z.allWithScores = l ++ [q]) : (z.remove q.1).allWithScores = l := by
  have hnodup := z.nodup_allWithScores
  rw [h, List.map_append, List.nodup_append] at hnodup
  rw [allWithScores_remove, h, List.filter_append, List.filter_cons_of_neg (by simp),
    List.filter_nil, List.append_nil]
  refine List.filter_eq_self.mpr fun p hp => decide_eq_true fun heq => ?_
  exact hnodup.2.2 p.1 (List.mem_map_of_mem hp) q.1 (by simp) heq

theorem min?_byScore (z : ZSet) : z.byScore.min? = z.allWithScores.head?.map keyOf := by
  rw [ExtTreeSet.min?_eq_head?_toList, byScore_eq_map_keyOf, List.head?_map]

theorem max?_byScore (z : ZSet) : z.byScore.max? = z.allWithScores.getLast?.map keyOf := by
  rw [ExtTreeSet.max?_eq_getLast?_toList, byScore_eq_map_keyOf, List.getLast?_map]

theorem score_keyOf (q : Bytes × F64) : ((keyOf q).member, (keyOf q).score) = q := by
  simp [keyOf, ScoreKey.new, ScoreKey.score, decodeScore_encodeScore]

theorem zpopmin_spec : ∀ (c : ℕ) (z : ZSet), (z.zpopmin c).1 = z.allWithScores.take c ∧
    (z.zpopmin c).2.allWithScores = z.allWithScores.drop c
  | 0, z => ⟨rfl, rfl⟩
  | c + 1, z => by
    rw [zpopmin, zpop, min?_byScore]
    cases hall : z.allWithScores with
    | nil => exact ⟨rfl, hall⟩
    | cons q l =>
      have hrest := allWithScores_remove_head hall
      obtain ⟨hfst, hsnd⟩ := zpopmin_spec c (z.remove q.1)
      rw [hrest] at hfst hsnd
      exact ⟨congrArg₂ List.cons (score_keyOf q) hfst, hsnd⟩

theorem zpopmax_spec : ∀ (c : ℕ) (z : ZSet), (z.zpopmax c).1 = z.allWithScores.reverse.take c ∧
    (z.zpopmax c).2.allWithScores = z.allWithScores.take (z.allWithScores.length - c)
  | 0, z => ⟨rfl, List.take_length.symm⟩
  | c + 1, z => by
    rw [zpopmax, zpop, max?_byScore]
    rcases List.eq_nil_or_concat z.allWithScores with hall | ⟨l, q, hall⟩
    · simp [hall]
    · rw [List.concat_eq_append] at hall
      have hrest := allWithScores_remove_last hall
      obtain ⟨hfst, hsnd⟩ := zpopmax_spec c (z.remove q.1)
      rw [hrest] at hfst hsnd
      rw [hall, List.getLast?_concat, List.reverse_concat, List.length_append]
      refine ⟨congrArg₂ List.cons (score_keyOf q) hfst, ?_⟩
      rw [List.length_singleton, Nat.add_sub_add_right, List.take_append_of_le_length (by omega)]
      exact hsnd

/-! ## Ranges and lists of members -/

/-- Counting out what is removed. -/
theorem zrem_fst_add_len : ∀ (ms : List Bytes) (z : ZSet),
    (z.zrem ms).1 + (z.zrem ms).2.len = z.len
  | [], z => by simp [zrem]
  | m :: ms, z => by
    have ih := zrem_fst_add_len ms (z.remove m)
    have hstep : (if z.scores.contains m then 1 else 0) + (z.remove m).len = z.len := by
      cases hm : z.scores[m]? with
      | none =>
        have hsame : z.remove m = z := by
          refine ext_scores ?_
          exact FinMap.erase_of_getElem? hm
        rw [ExtTreeMap.contains_eq_isSome_getElem?, hm, hsame]
        simp
      | some x =>
        have hlen := len_remove (k := ScoreKey.new x m) ((z.mem_byScore_iff _).mpr ⟨m, x, hm, rfl⟩)
        have hmember : (ScoreKey.new x m).member = m := rfl
        rw [hmember] at hlen
        rw [ExtTreeMap.contains_eq_isSome_getElem?, hm]
        simp only [Option.isSome_some, if_true]
        omega
    rw [zrem]
    simp only
    omega

theorem allWithScores_zrem (z : ZSet) (ms : List Bytes) :
    (z.zrem ms).2.allWithScores = z.allWithScores.filter fun q => q.1 ∉ ms := by
  refine allWithScores_of_scores (p := fun m => m ∉ ms) fun m => ?_
  rw [(zrem_spec ms z).2]
  by_cases hm : m ∈ ms
  · simp [hm]
  · simp [hm]

/-- The entries of the listed members are as many as are removed. -/
theorem zrem_fst (z : ZSet) (ms : List Bytes) :
    (z.zrem ms).1 = (z.allWithScores.filter fun q => q.1 ∈ ms).length := by
  have hcount := zrem_fst_add_len ms z
  have hsplit := List.length_eq_length_filter_add (l := z.allWithScores) fun q => q.1 ∈ ms
  rw [← length_allWithScores, ← length_allWithScores, allWithScores_zrem] at hcount
  simp only [decide_not] at hcount
  omega

/-- Each listed member that is there counts once. -/
theorem zrem_fst_eq_dedup (z : ZSet) (ms : List Bytes) :
    (z.zrem ms).1 = (ms.dedup.filter fun m => (z.zscore m).isSome).length := by
  rw [zrem_fst, ← List.length_map (f := Prod.fst)]
  refine ((List.perm_ext_iff_of_nodup ?_
    ((List.nodup_dedup ms).filter _)).mpr fun m => ?_).length_eq
  · exact z.nodup_allWithScores.sublist (List.filter_sublist.map _)
  · simp only [List.mem_map, List.mem_filter, decide_eq_true_eq, List.mem_dedup, Prod.exists,
      exists_and_right, exists_eq_right, mem_allWithScores_iff, Option.isSome_iff_exists]
    exact and_comm

/-- An entry is found by its member. -/
theorem mem_map_fst_iff {l : List (Bytes × F64)} (hl : ∀ p ∈ l, p ∈ z.allWithScores)
    {q : Bytes × F64} (hq : q ∈ z.allWithScores) : q.1 ∈ l.map Prod.fst ↔ q ∈ l := by
  refine ⟨fun h => ?_, fun h => List.mem_map_of_mem h⟩
  obtain ⟨p, hp, hfst⟩ := List.mem_map.mp h
  have hscore := mem_allWithScores.mp (hl p hp)
  rw [hfst, mem_allWithScores.mp hq, Option.some.injEq] at hscore
  rw [Prod.ext hfst.symm hscore]
  exact hp

/-- Removing the members of some of the entries leaves the others. -/
theorem zrem_of_sublist {l : List (Bytes × F64)} (hl : l.Sublist z.allWithScores) :
    (z.zrem (l.map Prod.fst)).1 = l.length ∧
      (z.zrem (l.map Prod.fst)).2.allWithScores = z.allWithScores.filter fun q => q ∉ l := by
  have hnodup : z.allWithScores.Nodup := z.nodup_allWithScores.of_map
  have hsubset : ∀ p ∈ l, p ∈ z.allWithScores := fun p hp => hl.subset hp
  constructor
  · rw [zrem_fst]
    refine ((List.perm_ext_iff_of_nodup (hnodup.filter _) (hnodup.sublist hl)).mpr
      fun q => ?_).length_eq
    rw [List.mem_filter, decide_eq_true_eq]
    constructor
    · rintro ⟨hq, hmem⟩
      exact (mem_map_fst_iff hsubset hq).mp hmem
    · intro hq
      exact ⟨hsubset q hq, List.mem_map_of_mem hq⟩
  · rw [allWithScores_zrem]
    refine List.filter_congr fun q hq => ?_
    exact decide_eq_decide.mpr (not_congr (mem_map_fst_iff hsubset hq))

theorem zrangeByRank_sublist (z : ZSet) (start stop : ℤ) :
    (z.zrangeByRank start stop false).Sublist z.allWithScores := by
  simp only [zrangeByRank, Bool.false_eq_true, if_false]
  split
  · exact List.nil_sublist _
  · exact (List.take_sublist _ _).trans (List.drop_sublist _ _)

/-- Each removal takes out exactly what a read reports, and leaves the other entries as they are,
in their order. -/
structure RemovalsAgree (z : ZSet) : Prop where
  popmin : ∀ c, (z.zpopmin c).1 = z.allWithScores.take (min c z.len) ∧
    (z.zpopmin c).2.allWithScores = z.allWithScores.drop (min c z.len)
  popmax : ∀ c, (z.zpopmax c).1 = z.allWithScores.reverse.take (min c z.len) ∧
    (z.zpopmax c).2.allWithScores = z.allWithScores.take (z.len - min c z.len)
  byRank : ∀ start stop,
    (z.zremrangebyrank start stop).1 = (z.zrangeByRank start stop false).length ∧
    (z.zremrangebyrank start stop).2.allWithScores =
      z.allWithScores.filter fun q => q ∉ z.zrangeByRank start stop false
  byScore : ∀ lo hi, (z.zremrangebyscore lo hi).1 = z.zcount lo hi ∧
    (z.zremrangebyscore lo hi).2.allWithScores =
      z.allWithScores.filter fun q => q ∉ z.zrangebyscore lo hi 0 none false
  members : ∀ ms, (z.zrem ms).1 = (ms.dedup.filter fun m => (z.zscore m).isSome).length ∧
    (z.zrem ms).2.allWithScores = z.allWithScores.filter fun q => q.1 ∉ ms

theorem removalsAgree (z : ZSet) : z.RemovalsAgree where
  popmin c := by
    obtain ⟨hfst, hsnd⟩ := zpopmin_spec c z
    have hlength := z.length_allWithScores
    constructor
    · rw [hfst, ← hlength, List.take_eq_take_min]
    · rw [hsnd, ← hlength, List.drop_eq_drop_min]
  popmax c := by
    obtain ⟨hfst, hsnd⟩ := zpopmax_spec c z
    have hlength := z.length_allWithScores
    constructor
    · rw [hfst, ← hlength, ← List.length_reverse, List.take_eq_take_min]
    · rw [hsnd, hlength]
      congr 1
      omega
  byRank start stop := zrem_of_sublist (z.zrangeByRank_sublist start stop)
  byScore lo hi := ⟨List.length_map _, (zrem_of_sublist List.filter_sublist).2⟩
  members ms := ⟨z.zrem_fst_eq_dedup ms, z.allWithScores_zrem ms⟩

end ZSet

end LoonyRedis
