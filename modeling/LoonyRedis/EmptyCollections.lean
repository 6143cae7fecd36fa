import LoonyRedis.AofCoverage
import LoonyRedis.ListEncodings
import LoonyRedis.ReadOnly
import LoonyRedis.StoreInvariants

/-!
# Empty collections

A collection without elements should be no key at all : a snapshot leaves it out, and the command
that would recreate it elsewhere is refused. But no store method removes a key when it takes the
last element out of it, and several create the key before they know that there is an element to
put into it.

`Request.LeavesFull` is the condition, for each request and the store before it, that neither
happens. `noEmpty_run_iff` says that a request keeps the store free of empty collections exactly
under it, and `no_empty_collections` is about whole runs, of calls that return : when a command
panics instead is in `Panics`.
-/

namespace LoonyRedis

open Std

/-! ## Requests -/

/-- A position of the list is left by `ltrim`. -/
def RedisList.TrimsSome (l : RedisList) (start stop : ℤ) : Prop :=
  Text.asUsize (max (if start < 0 then Text.wrap (l.len + start) else start) 0) <
    min (Text.addUsize (Text.asUsize
      (max (min (if stop < 0 then Text.wrap (l.len + stop) else stop) (l.len - 1)) (-1))) 1) l.len

namespace Request

/-- A request that takes the last element out of no collection, and creates none without an
element. -/
def LeavesFull (s : Store) : Request → Prop
  | push _ key values => values ≠ [] ∨ s[key]? ≠ none
  | pop _ key count _ => s.IfHeld .list key fun l => max count 1 < l.len
  | lrem key count val => s.IfHeld .list key fun l =>
      (∃ x ∈ l.toVec, x ≠ val) ∨ count.1 ≠ 0 ∧ count.1.natAbs < l.len
  | ltrim key start stop => s.IfHeld .list key fun l => l.TrimsSome start stop
  | lmove src dst _ _ => src = dst ∨ s.IfHeld .list src fun l => 1 < l.len
  | hdel key fields => s.IfHeld .hash key fun h => ∃ f, h.get f ≠ none ∧ f ∉ fields
  | sadd key members => members ≠ [] ∨ s[key]? ≠ none
  | srem key members => s.IfHeld .set key fun t => ∃ m, t.contains m = true ∧ m ∉ members
  | smove src dst member =>
    src = dst ∨ s.IfHeld .set src fun t => ∃ m, t.contains m = true ∧ m ≠ member
  | spop key count => s.IfHeld .set key fun t => count.getD 1 < t.len
  | combineStore op _ ks => (∃ k ∈ ks, s.NotSet k) ∨ ∃ m, op.Selects s ks m
  | zadd key flags steps => s[key]? = none →
      ZaddStep.applied steps = [] ∨ ZSet.new.Gains flags (ZaddStep.applied steps)
  | zrem key members => s.IfHeld .zset key fun z =>
      ∃ m : Bytes, z.scores[m]? ≠ none ∧ m ∉ members
  | zpopmin key count | zpopmax key count => s.IfHeld .zset key fun z => count < z.len
  | zremrangebyrank key start stop => s.IfHeld .zset key fun z =>
      0 < (Text.window z.len start stop).1 ∨ (Text.window z.len start stop).2 < z.len
  | zremrangebyscore key lo hi => s.IfHeld .zset key fun z =>
      ∃ p ∈ z.allWithScores, (lo.satisfiesLower p.2 && hi.satisfiesUpper p.2) = false
  | _ => True

end Request

/-! ## Elements -/

section Full

/-- A list is not empty if it has an element. -/
theorem RedisList.isEmpty_eq_false {l : RedisList} : l.isEmpty = false ↔ l.toVec ≠ [] := by
  simp [isEmpty, len_eq_zero]

/-- A hash is not empty if some field has a value. -/
theorem RedisHash.isEmpty_eq_false {h : RedisHash} : h.isEmpty = false ↔ ∃ f, h.get f ≠ none := by
  have hnil : h.isEmpty = true ↔ h.allPairs (.plain 0) = [] := by
    rw [allPairs_eq_nil]
    simp [isEmpty]
  rw [Bool.eq_false_iff, Ne, hnil, List.eq_nil_iff_forall_not_mem]
  push Not
  constructor
  · rintro ⟨⟨f, w⟩, hmem⟩
    exact ⟨f, by simp [mem_allPairs.mp hmem]⟩
  · rintro ⟨f, hf⟩
    obtain ⟨w, hw⟩ := Option.ne_none_iff_exists'.mp hf
    exact ⟨(f, w), mem_allPairs.mpr hw⟩

/-- A set is not empty if it has a member. -/
theorem RedisSet.isEmpty_eq_false {t : RedisSet} :
    t.isEmpty = false ↔ ∃ m, t.contains m = true := by
  have hnil : t.isEmpty = true ↔ t.members (.plain 0) = [] := by
    rw [members_eq_nil]
    simp [isEmpty]
  rw [Bool.eq_false_iff, Ne, hnil, List.eq_nil_iff_forall_not_mem]
  push Not
  exact exists_congr fun m => mem_members

/-- A sorted set is not empty if some member has a score. -/
theorem ZSet.isEmpty_eq_false {z : ZSet} :
    z.isEmpty = false ↔ ∃ m : Bytes, z.scores[m]? ≠ none := by
  rw [isEmpty, ExtTreeMap.isEmpty_eq_false_iff]
  constructor
  · intro hne
    by_contra hnone
    push Not at hnone
    exact hne (ExtTreeMap.ext_getElem? fun m => by rw [hnone m, ExtTreeMap.getElem?_empty])
  · rintro ⟨m, hm⟩ hempty
    rw [hempty, ExtTreeMap.getElem?_empty] at hm
    exact hm rfl

end Full

/-! ## Lists -/

namespace RedisList

variable {l : RedisList}

theorem isEmpty_foldl_pushFront {vals : List Bytes} :
    (vals.foldl pushFront l).isEmpty = false ↔ vals ≠ [] ∨ l.isEmpty = false := by
  rw [isEmpty_eq_false, isEmpty_eq_false, toVec_foldl_pushFront, Ne, List.append_eq_nil_iff,
    List.reverse_eq_nil_iff, not_and_or]

theorem isEmpty_foldl_pushBack {vals : List Bytes} :
    (vals.foldl pushBack l).isEmpty = false ↔ vals ≠ [] ∨ l.isEmpty = false := by
  rw [isEmpty_eq_false, isEmpty_eq_false, toVec_foldl_pushBack, Ne, List.append_eq_nil_iff,
    not_and_or, or_comm]

/-- Something is left if fewer elements are popped than there are. -/
theorem isEmpty_popFrontN {n : ℕ} : (l.popFrontN n).2.isEmpty = false ↔ n < l.len := by
  rw [isEmpty_eq_false, popFrontN, (ListOp.popN_popFront n l).2, Ne, List.drop_eq_nil_iff]
  exact Nat.not_le

theorem isEmpty_popBackN {n : ℕ} : (l.popBackN n).2.isEmpty = false ↔ n < l.len := by
  rw [isEmpty_eq_false, popBackN, (ListOp.popN_popBack n l).2, Ne, List.take_eq_nil_iff, len,
    ← List.length_eq_zero_iff]
  omega

/-- Dropping leaves nothing if every element is dropped. -/
theorem dropVal_eq_nil {val : Bytes} : ∀ {limit : ℕ} {items : List Bytes},
    (dropVal val limit items).2 = [] ↔ (∀ x ∈ items, x = val) ∧ items.length ≤ limit
  | _, [] => by simp [dropVal]
  | 0, _ :: _ => by simp [dropVal]
  | limit + 1, b :: items => by
    unfold dropVal
    split
    · next hb => simp [hb, dropVal_eq_nil]
    · next hb => simp [hb]

/-- Something is left if another element is there, or more occurrences than are removed. -/
theorem isEmpty_lrem {count : Text.I64} {val : Bytes} :
    (l.lrem count val).2.isEmpty = false ↔
      (∃ x ∈ l.toVec, x ≠ val) ∨ count.1 ≠ 0 ∧ count.1.natAbs < l.len := by
  obtain ⟨c, hlo, hhi⟩ := count
  have hneg : c < 0 → Text.asUsize (Text.wrap (-c)) = c.natAbs := by
    intro hc
    rw [Text.i64Min] at hlo
    have hmod : (Text.wrap (-c)).1 % 2 ^ 64 = -c % 2 ^ 64 := Int.bmod_emod
    rw [Text.asUsize, hmod, Int.emod_eq_of_lt (by omega) (by omega)]
    omega
  have hdrop {n : ℕ} {items : List Bytes} (hmem : ∀ x, x ∈ items ↔ x ∈ l.toVec)
      (hlen : items.length = l.len) : (dropVal val n items).2 ≠ [] ↔
        (∃ x ∈ l.toVec, x ≠ val) ∨ n < l.len := by
    rw [Ne, dropVal_eq_nil, not_and_or, hlen, Nat.not_le]
    simp [hmem]
  rw [isEmpty_eq_false]
  unfold lrem
  split
  · next hc =>
    change (dropVal val (Text.asUsize c) l.toVec).2 ≠ [] ↔ _
    rw [Text.asUsize_of_nonneg hc.le hhi, hdrop (fun _ => Iff.rfl) rfl]
    simp [hc.ne']
  · split
    · next hc =>
      change (dropVal val (Text.asUsize (Text.wrap (-c))) l.toVec.reverse).2.reverse ≠ [] ↔ _
      rw [Ne, List.reverse_eq_nil_iff, hneg hc, ← Ne, hdrop (by simp) (by simp [len])]
      simp [hc.ne]
    · next hpos hnonneg =>
      obtain rfl : c = 0 := Int.le_antisymm (Int.not_lt.mp hpos) (Int.not_lt.mp hnonneg)
      change (dropVal val l.toVec.length l.toVec).2 ≠ [] ↔ _
      rw [hdrop (fun _ => Iff.rfl) rfl]
      simp [len]

theorem isEmpty_ltrim {start stop : ℤ} :
    (l.ltrim start stop).isEmpty = false ↔ l.TrimsSome start stop := by
  rw [isEmpty_eq_false]
  simp only [ltrim, TrimsSome]
  generalize Text.asUsize (max (if start < 0 then (Text.wrap (l.len + start)).1 else start) 0) = i
  generalize Text.asUsize
    (max (min (if stop < 0 then (Text.wrap (l.len + stop)).1 else stop) (l.len - 1)) (-1)) = j
  have hwrap : Text.addUsize j 1 ≤ j + 1 := Nat.mod_le _ _
  split
  · next h =>
    refine iff_of_false (fun hne => hne rfl) ?_
    omega
  · change l.range i (Text.addUsize j 1) ≠ [] ↔ _
    rw [Ne, range_eq_nil]
    omega

end RedisList

/-! ## Hashes and sets -/

theorem RedisHash.isEmpty_hset (h : RedisHash) (field value : Bytes) :
    (h.hset field value).2.isEmpty = false :=
  isEmpty_eq_false.mpr ⟨field, by simp [get_hset]⟩

theorem RedisHash.isEmpty_hsetnx (h : RedisHash) (field value : Bytes) :
    (h.hsetnx field value).2.isEmpty = false := by
  refine isEmpty_eq_false.mpr ⟨field, ?_⟩
  rw [get_hsetnx, if_pos rfl]
  exact Option.some_ne_none _

/-- Something is left if some field is not among the removed ones. -/
theorem RedisHash.isEmpty_hdel {h : RedisHash} {fields : List Bytes} :
    (h.hdel fields).2.isEmpty = false ↔ ∃ f, h.get f ≠ none ∧ f ∉ fields := by
  rw [isEmpty_eq_false]
  refine exists_congr fun f => ?_
  rw [get_hdel]
  by_cases hf : f ∈ fields <;> simp [hf]

namespace RedisSet

variable {t : RedisSet}

theorem isEmpty_sadd {ms : List Bytes} :
    (t.sadd ms).2.isEmpty = false ↔ ms ≠ [] ∨ t.isEmpty = false := by
  rw [isEmpty_eq_false, isEmpty_eq_false]
  simp only [contains_sadd, exists_or]
  exact or_congr_left ⟨fun ⟨x, hx⟩ => List.ne_nil_of_mem hx, List.exists_mem_of_ne_nil ms⟩

/-- Something is left if some member is not among the removed ones. -/
theorem isEmpty_srem {ms : List Bytes} :
    (t.srem ms).2.isEmpty = false ↔ ∃ m, t.contains m = true ∧ m ∉ ms := by
  rw [isEmpty_eq_false]
  exact exists_congr fun m => contains_srem.trans and_comm

/-- Something is left if there is another member. -/
theorem isEmpty_removeOne {m : Bytes} :
    (t.removeOne m).2.isEmpty = false ↔ ∃ x, t.contains x = true ∧ x ≠ m := by
  rw [isEmpty_eq_false]
  exact exists_congr fun x => contains_removeOne.trans and_comm

/-- Popping leaves a member if there are more than it pops. -/
theorem isEmpty_spop {env : Env} {count : ℕ} (ht : t.isEmpty = false) :
    (t.spop env count).2.isEmpty = false ↔ count < t.len := by
  have hperm := env.shuffle_perm (t.members env)
  have hlen : (env.shuffle (t.members env)).length = t.len :=
    hperm.length_eq.trans (length_members env t)
  have hne : t.members env ≠ [] := by
    rw [Ne, members_eq_nil]
    simpa [isEmpty] using ht
  rw [isEmpty_eq_false]
  simp only [spop, if_neg hne, contains_removeEach, length_members]
  constructor
  · rintro ⟨m, hpopped, hm⟩
    by_contra hge
    rw [Nat.min_eq_right (Nat.not_lt.mp hge), ← hlen, List.take_length, hperm.mem_iff] at hpopped
    exact hpopped (mem_members.mpr hm)
  · intro hlt
    -- The member behind the popped ones is still there, as the members are different.
    have hlt' : count < (env.shuffle (t.members env)).length := by rwa [hlen]
    refine ⟨(env.shuffle (t.members env)).get ⟨count, hlt'⟩, ?_, ?_⟩
    · rw [Nat.min_eq_left hlt.le]
      intro hmem
      have hnodup : (env.shuffle (t.members env)).Nodup :=
        hperm.nodup_iff.mpr (nodup_members env t)
      obtain ⟨i, hi, heq⟩ := List.mem_take_iff_getElem.mp hmem
      have hidx := hnodup.getElem_inj_iff.mp heq
      omega
    · exact mem_members.mp (hperm.mem_iff.mp (List.get_mem _ _))

end RedisSet

/-! ## Sorted sets -/

namespace ZSet

variable {z : ZSet}

theorem isEmpty_iff_len : z.isEmpty = false ↔ 0 < z.len := by
  rw [isEmpty, ExtTreeMap.isEmpty_eq_size_beq_zero, beq_eq_false_iff_ne]
  exact Nat.pos_iff_ne_zero.symm

theorem isEmpty_put (z : ZSet) (m : Bytes) (x : F64) : (z.put m x).isEmpty = false :=
  isEmpty_eq_false.mpr ⟨m, by simp [scores_put]⟩

/-- Something is left if some member is not among the removed ones. -/
theorem isEmpty_zrem {ms : List Bytes} :
    (z.zrem ms).2.isEmpty = false ↔ ∃ m : Bytes, z.scores[m]? ≠ none ∧ m ∉ ms := by
  rw [isEmpty_eq_false]
  refine exists_congr fun m => ?_
  rw [(zrem_spec ms z).2]
  by_cases hm : m ∈ ms <;> simp [hm]

/-- Removing some of the members in order leaves one if one of them is not removed. -/
theorem isEmpty_zrem_pairs {ps : List (Bytes × F64)} (hsub : ∀ p ∈ ps, p ∈ z.allWithScores) :
    (z.zrem (ps.map Prod.fst)).2.isEmpty = false ↔ ∃ p ∈ z.allWithScores, p ∉ ps := by
  rw [isEmpty_zrem]
  constructor
  · rintro ⟨m, hm, hnot⟩
    obtain ⟨x, hx⟩ := Option.ne_none_iff_exists'.mp hm
    exact ⟨(m, x), mem_allWithScores.mpr hx, fun hmem => hnot (List.mem_map_of_mem hmem)⟩
  · rintro ⟨⟨m, x⟩, hmem, hnot⟩
    have hx := mem_allWithScores.mp hmem
    refine ⟨m, by simp [hx], fun hin => ?_⟩
    obtain ⟨⟨m', x'⟩, hp, rfl⟩ := List.mem_map.mp hin
    have hx' := mem_allWithScores.mp (hsub _ hp)
    obtain rfl : x = x' := Option.some.inj (hx.symm.trans hx')
    exact hnot hp

/-- Something is left if some score is outside of the range. -/
theorem isEmpty_zremrangebyscore {lo hi : ScoreBound} :
    (z.zremrangebyscore lo hi).2.isEmpty = false ↔
      ∃ p ∈ z.allWithScores, (lo.satisfiesLower p.2 && hi.satisfiesUpper p.2) = false := by
  have hsub : ∀ p ∈ z.inRange lo hi, p ∈ z.allWithScores := fun p hp => (List.mem_filter.mp hp).1
  refine (isEmpty_zrem_pairs hsub).trans ?_
  refine exists_congr fun p => and_congr_right fun hp => ?_
  rw [inRange, List.mem_filter, not_and, forall_prop_of_true hp, Bool.not_eq_true]

/-- Something is left if the window does not have all ranks. -/
theorem isEmpty_zremrangebyrank {start stop : ℤ} (hz : z.isEmpty = false) :
    (z.zremrangebyrank start stop).2.isEmpty = false ↔
      0 < (Text.window z.len start stop).1 ∨ (Text.window z.len start stop).2 < z.len := by
  have hlen := z.length_allWithScores
  have hpos : 0 < z.len := isEmpty_iff_len.mp hz
  have hsub : (z.zrangeByRank start stop false).Sublist z.allWithScores := by
    simp only [zrangeByRank]
    split
    · exact List.nil_sublist _
    · exact (List.take_sublist _ _).trans (List.drop_sublist _ _)
  have hcount : (z.zrangeByRank start stop false).length < z.len ↔
      0 < (Text.window z.len start stop).1 ∨ (Text.window z.len start stop).2 < z.len := by
    simp only [zrangeByRank]
    split
    · next h =>
      rw [List.length_nil]
      omega
    · next h =>
      simp only [Bool.false_eq_true, if_false, List.length_take, List.length_drop, hlen]
      omega
  refine (isEmpty_zrem_pairs fun p hp => hsub.subset hp).trans (Iff.trans ?_ hcount)
  rw [← hlen]
  constructor
  · rintro ⟨p, hp, hnot⟩
    refine Nat.lt_of_not_le fun hle => hnot ?_
    rwa [hsub.eq_of_length_le hle]
  · intro hlt
    by_contra hall
    push Not at hall
    have hnodup : z.allWithScores.Nodup := z.nodup_allWithScores.of_map
    exact absurd (List.subperm_of_subset hnodup hall).length_le (Nat.not_le.mpr hlt)

/-- Popping takes as many members as it can. -/
theorem len_zpop {pick : ZSet → Option ScoreKey}
    (hpick : ∀ z : ZSet, (pick z = none ↔ z.len = 0) ∧ ∀ k, pick z = some k → k ∈ z.byScore) :
    ∀ (n : ℕ) (z : ZSet), (zpop pick n z).2.len = z.len - n
  | 0, z => rfl
  | n + 1, z => by
    unfold zpop
    cases hk : pick z with
    | none =>
      have hzero := (hpick z).1.mp hk
      simp only
      omega
    | some k =>
      have hlen := len_remove ((hpick z).2 k hk)
      simp only
      rw [len_zpop hpick n]
      omega

/-- Something is left if fewer members are popped than there are. -/
theorem isEmpty_zpopmin {n : ℕ} : (z.zpopmin n).2.isEmpty = false ↔ n < z.len := by
  rw [isEmpty_iff_len, zpopmin, len_zpop fun z => ⟨?_, fun k hk => ExtTreeSet.min?_mem hk⟩]
  · omega
  · rw [ExtTreeSet.min?_eq_none_iff, byScore_eq_empty]

theorem isEmpty_zpopmax {n : ℕ} : (z.zpopmax n).2.isEmpty = false ↔ n < z.len := by
  rw [isEmpty_iff_len, zpopmax, len_zpop fun z => ⟨?_, fun k hk => ExtTreeSet.max?_mem hk⟩]
  · omega
  · rw [ExtTreeSet.max?_eq_none_iff, byScore_eq_empty]

variable {flags : ZaddFlags}

/-- A pair takes no member out. -/
theorem isEmpty_zadd {x : F64} {m : Bytes} (hz : z.isEmpty = false) :
    (z.zadd x m flags.nx flags.xx flags.gt flags.lt).2.isEmpty = false := by
  obtain ⟨g, hg⟩ := isEmpty_eq_false.mp hz
  refine isEmpty_eq_false.mpr ⟨g, ?_⟩
  rw [scores_zadd]
  split
  · exact fun hnone => hg (flags.rescore_eq_none_iff.mp hnone).1
  · exact hg

/-- Pairs take no member out, one after the other. -/
theorem isEmpty_zaddAll : ∀ {adds : List (F64 × Bytes)} {z : ZSet}, z.isEmpty = false →
    (z.zaddAll flags adds).isEmpty = false
  | [], _, hz => hz
  | (x, m) :: adds, z, hz => by
    have hstep : (z.zadd x m flags.nx flags.xx flags.gt flags.lt).2.isEmpty = false :=
      isEmpty_zadd hz
    exact @isEmpty_zaddAll adds _ hstep

/-- On an empty set something is added if a pair adds a member. -/
theorem isEmpty_zaddAll_new {adds : List (F64 × Bytes)} :
    (new.zaddAll flags adds).isEmpty = false ↔ new.Gains flags adds := by
  constructor
  · intro hfull
    by_contra hnot
    have hcounts : (zaddCounts flags adds new).2 = 0 := by rw [zaddCounts_new flags hnot]
    rw [zaddAll_of_zaddCounts flags hcounts] at hfull
    cases hfull
  · rintro ⟨hxx, ⟨x, m⟩, hp, hnan, -⟩
    obtain ⟨pre, post, rfl⟩ := List.append_of_mem hp
    have hsplit : new.zaddAll flags (pre ++ (x, m) :: post) =
        ((new.zaddAll flags pre).zadd x m flags.nx flags.xx flags.gt flags.lt).2.zaddAll flags
          post := by
      rw [zaddAll, List.foldl_append]
      rfl
    rw [hsplit]
    refine isEmpty_zaddAll (isEmpty_eq_false.mpr ⟨m, ?_⟩)
    rw [scores_zadd, if_pos rfl, Ne, flags.rescore_eq_none_iff, hxx]
    simp [hnan]

end ZSet

/-! ## Stores -/

namespace Store

variable {α β : Type} {K : Kind α} {key : String} {s : Store} {dflt : β} {init : α}
  {f : α → Except String β × α}

/-- Each value of the store is not empty. -/
theorem NoEmpty.all (hs : s.NoEmpty) : s.All fun v => v.isEmpty = false := hs

theorem noEmpty_empty : NoEmpty ∅ := fun k e he => by simp at he

/-- Only the written value can be empty. -/
theorem NoEmpty.insert_iff (hs : s.NoEmpty) {e : Entry} :
    NoEmpty (s.insert key e) ↔ e.value.isEmpty = false :=
  hs.all.insert_iff

/-- The value of a key is not empty. -/
theorem NoEmpty.wrap (hs : s.NoEmpty) {e : Entry} {a : α} (he : s[key]? = some e)
    (hv : K.view e.value = some a) : (K.wrap a).isEmpty = false :=
  hs.all.wrap he hv

/-- Conditions on what is held need to agree on values that are not empty. -/
theorem NoEmpty.ifHeld_congr (hs : s.NoEmpty) {P Q : α → Prop}
    (h : ∀ a, (K.wrap a).isEmpty = false → (P a ↔ Q a)) : s.IfHeld K key P ↔ s.IfHeld K key Q :=
  forall₂_congr fun _ a => forall₂_congr fun he hv => h a (hs.wrap he hv)

/-- A change in place leaves no empty value if the changed value is not empty. -/
theorem NoEmpty.update_iff (hs : s.NoEmpty) : (update K key dflt f s).2.NoEmpty ↔
    s.IfHeld K key fun a => (K.wrap (f a).2).isEmpty = false :=
  hs.all.update_iff

/-- The same for a key that is created if it is missing, and whose value then only grows. -/
theorem NoEmpty.upsert_iff (hs : s.NoEmpty)
    (hgrows : ∀ a, (K.wrap a).isEmpty = false → (K.wrap (f a).2).isEmpty = false) :
    (upsert K key init f s).2.NoEmpty ↔
      s[key]? = none → (K.wrap (f init).2).isEmpty = false :=
  hs.all.upsert_iff.trans (and_iff_left fun _ a he hv => hgrows a (hs.wrap he hv))

/-- A change that always leaves something. -/
theorem NoEmpty.upsert (hs : s.NoEmpty) (hfull : ∀ a, (K.wrap (f a).2).isEmpty = false) :
    (upsert K key init f s).2.NoEmpty :=
  (hs.upsert_iff fun a _ => hfull a).mpr fun _ => hfull init

/-- A move to another key leaves no empty value if it does not take the last element. What
happens at the other key makes no difference, not even an error. -/
theorem NoEmpty.move_iff (hs : s.NoEmpty) {src dst : String} {take : α → Option β × α}
    {give : β → α → α} (hgive : ∀ b a, (K.wrap (give b a)).isEmpty = false)
    (htake : ∀ a, (K.wrap a).isEmpty = false → (take a).1 = none →
      (K.wrap (take a).2).isEmpty = false) :
    (move K src dst init take give s).2.NoEmpty ↔
      src = dst ∨ s.IfHeld K src fun a => (K.wrap (take a).2).isEmpty = false := by
  cases he : s[src]? with
  | none =>
    rw [move_none he]
    exact iff_of_true hs (Or.inr (ifHeld_of_none he))
  | some e =>
    cases hv : K.view e.value with
    | none =>
      rw [move_wrong he hv]
      exact iff_of_true hs (Or.inr (ifHeld_of_wrong he hv))
    | some a =>
      rw [ifHeld_iff he hv]
      cases hb : (take a).1 with
      | none =>
        have hfull := htake a (hs.wrap he hv) hb
        rw [move_empty he hv hb]
        exact iff_of_true (hs.insert_iff.mpr hfull) (Or.inr hfull)
      | some b =>
        rw [move_some he hv hb]
        by_cases hsd : src = dst
        · subst hsd
          rw [upsert_some FinMap.getElem?_insert_self (K.view_wrap _), FinMap.insert_insert]
          exact iff_of_true (hs.insert_iff.mpr (hgive b _)) (Or.inl rfl)
        · rw [or_iff_right hsd]
          constructor
          · -- The source is as the removal left it.
            intro hfull
            refine hfull src { e with value := K.wrap (take a).2 } ?_
            rw [upsert_snd, FinMap.getElem?_insert, if_neg (Ne.symm hsd),
              FinMap.getElem?_insert_self]
          · intro hfull
            have hsrc : NoEmpty (s.insert src { e with value := K.wrap (take a).2 }) :=
              hs.insert_iff.mpr hfull
            exact hsrc.upsert fun a => hgive b a

/-- A key that is reported holds something. -/
theorem NoEmpty.reported (hs : s.NoEmpty) {env : Env} {k : String}
    (h : s.exists_ env.now k = true ∨ s.typeOf env.now k ≠ "none" ∨ k ∈ s.allKeys env) :
    ∃ e, s[k]? = some e ∧ e.value.isEmpty = false := by
  cases he : s[k]? with
  | some e => exact ⟨e, rfl, hs k e he⟩
  | none =>
    rcases h with h | h | h
    · simp [exists_, he] at h
    · simp [typeOf, he] at h
    · rw [allKeys, (env.keyOrder_perm _).mem_iff, ExtTreeMap.mem_keys,
        ExtTreeMap.mem_iff_isSome_getElem?, getElem?_live, he] at h
      simp at h

end Store

/-! ## All requests -/

namespace Request

variable {ctx : CommandContext} {env : Env} {s : Store}

/-- A push without values creates an empty list. -/
theorem noEmpty_push {left : Bool} {key : String} {values : List Bytes} (hs : s.NoEmpty) :
    ((push left key values).run ctx env s).store.NoEmpty ↔ values ≠ [] ∨ s[key]? ≠ none := by
  have hnew : ¬ RedisList.new.isEmpty = false := by decide
  rw [run, store_of, Ne, ← imp_iff_or_not]
  cases left with
  | true =>
    refine (hs.upsert_iff fun l hl => ?_).trans (imp_congr_right fun _ => ?_)
    · exact RedisList.isEmpty_foldl_pushFront.mpr (Or.inr hl)
    · exact RedisList.isEmpty_foldl_pushFront.trans (or_iff_left hnew)
  | false =>
    refine (hs.upsert_iff fun l hl => ?_).trans (imp_congr_right fun _ => ?_)
    · exact RedisList.isEmpty_foldl_pushBack.mpr (Or.inr hl)
    · exact RedisList.isEmpty_foldl_pushBack.trans (or_iff_left hnew)

/-- A pop that takes all elements leaves an empty list. It takes one even if the count is 0. -/
theorem noEmpty_pop {left : Bool} {key : String} {count : ℕ} {withCount : Bool} (hs : s.NoEmpty) :
    ((pop left key count withCount).run ctx env s).store.NoEmpty ↔
      s.IfHeld .list key fun l => max count 1 < l.len := by
  rw [run, Outcome.change, store_of]
  cases left with
  | true => exact hs.update_iff.trans (ifHeld_congr fun l => RedisList.isEmpty_popFrontN)
  | false => exact hs.update_iff.trans (ifHeld_congr fun l => RedisList.isEmpty_popBackN)

/-- A move takes the last element, unless it puts it back. -/
theorem noEmpty_lmove {src dst : String} {fromLeft toLeft : Bool} (hs : s.NoEmpty) :
    ((lmove src dst fromLeft toLeft).run ctx env s).store.NoEmpty ↔
      src = dst ∨ s.IfHeld .list src fun l => 1 < l.len := by
  have hpops : RedisList.Pops fun l => if fromLeft then l.popFront else l.popBack := by
    cases fromLeft with
    | true => exact RedisList.pops_front
    | false => exact RedisList.pops_back
  rw [run, Outcome.change, store_of]
  refine (hs.move_iff (fun b l => ?_) fun l hl hnone => ?_).trans
    (or_congr_right (ifHeld_congr fun l => ?_))
  · refine RedisList.isEmpty_eq_false.mpr ?_
    cases toLeft <;> simp
  · exact absurd ((hpops.none_iff l).mp hnone) (RedisList.isEmpty_eq_false.mp hl)
  · have hlen := hpops.length l
    refine RedisList.isEmpty_eq_false.trans ?_
    rw [← List.length_pos_iff, RedisList.len]
    omega

/-- A move takes the last member, unless it puts it back. -/
theorem noEmpty_smove {src dst : String} {member : Bytes} (hs : s.NoEmpty) :
    ((smove src dst member).run ctx env s).store.NoEmpty ↔
      src = dst ∨ s.IfHeld .set src fun t => ∃ m, t.contains m = true ∧ m ≠ member := by
  rw [run, Outcome.change, store_of]
  refine (hs.move_iff (fun b t => ?_) fun t ht hnone => ?_).trans
    (or_congr_right (ifHeld_congr fun t => RedisSet.isEmpty_removeOne))
  · exact RedisSet.isEmpty_sadd.mpr (Or.inl (List.cons_ne_nil _ _))
  · -- A member that is not there is not the one that a nonempty set has.
    rw [RedisSet.removeOne_fst] at hnone
    obtain ⟨m, hm⟩ := RedisSet.isEmpty_eq_false.mp ht
    refine RedisSet.isEmpty_removeOne.mpr ⟨m, hm, fun heq => ?_⟩
    simp [← heq, hm] at hnone

/-- An empty result is stored. -/
theorem noEmpty_combineStore {op : SetOp} {dst : String} {ks : List String} (hs : s.NoEmpty) :
    ((combineStore op dst ks).run ctx env s).store.NoEmpty ↔
      (∃ k ∈ ks, s.NotSet k) ∨ ∃ m, op.Selects s ks m := by
  rw [run, Outcome.change, store_of]
  unfold Store.combineStore
  rcases Store.combine_eq op env ks s with ⟨hnot, herr⟩ | ⟨hall, r, hr, hmem⟩
  · rw [herr]
    exact iff_of_true hs (Or.inl hnot)
  · have hkinds : ¬ ∃ k ∈ ks, s.NotSet k := by
      rintro ⟨k, hk, hnot⟩
      exact hall k hk hnot
    rw [hr, or_iff_right hkinds]
    refine hs.insert_iff.trans (RedisSet.isEmpty_eq_false.trans (exists_congr fun m => ?_))
    rw [RedisSet.contains_sadd, (env.memberOrder_perm _).mem_iff, ExtTreeSet.mem_toList, hmem]
    simp

/-- A hash that is created gets the field, since a missing field counts as 0. -/
theorem noEmpty_hincrby {key : String} {field : Bytes} {delta : Text.I64} (hs : s.NoEmpty) :
    ((hincrby key field delta).run ctx env s).store.NoEmpty := by
  rw [run, Outcome.change, store_of]
  refine (hs.upsert_iff fun h hh => ?_).mpr fun _ => ?_
  · split
    · exact hh
    · split
      · exact hh
      · exact RedisHash.isEmpty_hset _ _ _
  · obtain ⟨z, hz, hadd⟩ := Store.checkedAdd_zero delta
    have hnone : RedisHash.new.get field = none := rfl
    simp only [hnone, hz, hadd]
    exact RedisHash.isEmpty_hset _ _ _

theorem noEmpty_hincrbyfloat {key : String} {field : Bytes} {delta : F64} (hs : s.NoEmpty) :
    ((hincrbyfloat key field delta).run ctx env s).store.NoEmpty := by
  rw [run, Outcome.change, store_of]
  refine (hs.upsert_iff fun h hh => ?_).mpr fun _ => ?_
  · split
    · exact hh
    · exact RedisHash.isEmpty_hset _ _ _
  · exact RedisHash.isEmpty_hset _ _ _

/-- A set is created before the pair is looked at, which may add nothing. -/
theorem noEmpty_zadd {key : String} {flags : ZaddFlags} {steps : List ZaddStep} (hs : s.NoEmpty) :
    ((zadd key flags steps).run ctx env s).store.NoEmpty ↔ (s[key]? = none →
      ZaddStep.applied steps = [] ∨ ZSet.new.Gains flags (ZaddStep.applied steps)) := by
  rw [run, store_of]
  cases he : s[key]? with
  | none =>
    rw [forall_prop_of_true rfl]
    obtain ⟨hnil, hcons, -⟩ := zaddLoop_none flags he steps
    by_cases happlied : ZaddStep.applied steps = []
    · rw [hnil happlied]
      exact iff_of_true hs (Or.inl happlied)
    · rw [hcons happlied, or_iff_right happlied]
      exact hs.insert_iff.trans ZSet.isEmpty_zaddAll_new
  | some e =>
    refine iff_of_true ?_ fun h => by cases h
    cases hv : Kind.zset.view e.value with
    | none =>
      rw [zaddLoop_wrong flags he hv]
      exact hs
    | some z =>
      rw [(zaddLoop_some flags steps he hv).1]
      exact hs.insert_iff.mpr (ZSet.isEmpty_zaddAll (hs.wrap he hv))

theorem noEmpty_lset {key : String} {index : ℤ} {val : Bytes} (hs : s.NoEmpty) :
    ((lset key index val).run ctx env s).store.NoEmpty := by
  rw [run, Outcome.change, store_of]
  refine hs.update_iff.mpr fun e l he hv => ?_
  have hl := RedisList.isEmpty_eq_false.mp (hs.wrap he hv)
  refine RedisList.isEmpty_eq_false.mpr ?_
  cases hidx : Store.listIndex l index with
  | none => exact hl
  | some i =>
    simp only [Store.done, RedisList.setIndex]
    split
    · simpa using hl
    · exact hl

theorem noEmpty_linsert {key : String} {before : Bool} {pivot val : Bytes} (hs : s.NoEmpty) :
    ((linsert key before pivot val).run ctx env s).store.NoEmpty := by
  have hinsert (l : RedisList) (offset : ℕ) (hl : l.toVec ≠ []) :
      (l.insertAt offset pivot val).2.toVec ≠ [] := by
    unfold RedisList.insertAt
    split
    · exact hl
    · have hlen := List.length_pos_iff.mpr hl
      refine List.ne_nil_of_length_pos ?_
      rw [RedisList.toVec_map, RedisList.toVec_fit, List.length_insertIdx]
      split <;> omega
  rw [run, Outcome.change, store_of]
  refine hs.update_iff.mpr fun e l he hv => ?_
  have hl := RedisList.isEmpty_eq_false.mp (hs.wrap he hv)
  refine RedisList.isEmpty_eq_false.mpr ?_
  cases before with
  | true => exact hinsert l 0 hl
  | false => exact hinsert l 1 hl

/-- A request leaves no empty collection exactly under its condition. -/
theorem noEmpty_run_iff (hs : s.NoEmpty) (r : Request) :
    (r.run ctx env s).store.NoEmpty ↔ r.LeavesFull s := by
  cases r with
  | push => exact noEmpty_push hs
  | pop => exact noEmpty_pop hs
  | lrem key count val =>
    rw [run, Outcome.change, store_of]
    exact hs.update_iff.trans (ifHeld_congr fun l => RedisList.isEmpty_lrem)
  | ltrim key start stop =>
    rw [run, Outcome.change, store_of]
    exact hs.update_iff.trans (ifHeld_congr fun l => RedisList.isEmpty_ltrim)
  | lmove => exact noEmpty_lmove hs
  | hdel key fields =>
    rw [run, Outcome.change, store_of]
    exact hs.update_iff.trans (ifHeld_congr fun h => RedisHash.isEmpty_hdel)
  | sadd key members =>
    change _ ↔ members ≠ [] ∨ ¬ s[key]? = none
    rw [run, store_of, ← imp_iff_or_not]
    refine (hs.upsert_iff fun t ht => ?_).trans (imp_congr_right fun _ => ?_)
    · exact RedisSet.isEmpty_sadd.mpr (Or.inr ht)
    · exact RedisSet.isEmpty_sadd.trans (or_iff_left (by decide))
  | srem key members =>
    rw [run, Outcome.change, store_of]
    exact hs.update_iff.trans (ifHeld_congr fun t => RedisSet.isEmpty_srem)
  | smove => exact noEmpty_smove hs
  | spop key count =>
    rw [run, Outcome.change, store_of]
    exact hs.update_iff.trans (hs.ifHeld_congr fun t ht => RedisSet.isEmpty_spop ht)
  | combineStore => exact noEmpty_combineStore hs
  | zadd => exact noEmpty_zadd hs
  | zrem key members =>
    rw [run, Outcome.change, store_of]
    exact hs.update_iff.trans (ifHeld_congr fun z => ZSet.isEmpty_zrem)
  | zpopmin key count =>
    rw [run, Outcome.change, store_of]
    exact hs.update_iff.trans (ifHeld_congr fun z => ZSet.isEmpty_zpopmin)
  | zpopmax key count =>
    rw [run, Outcome.change, store_of]
    exact hs.update_iff.trans (ifHeld_congr fun z => ZSet.isEmpty_zpopmax)
  | zremrangebyrank key start stop =>
    rw [run, Outcome.change, store_of]
    exact hs.update_iff.trans (hs.ifHeld_congr fun z hz => ZSet.isEmpty_zremrangebyrank hz)
  | zremrangebyscore key lo hi =>
    rw [run, Outcome.change, store_of]
    exact hs.update_iff.trans (ifHeld_congr fun z => ZSet.isEmpty_zremrangebyscore)
  -- The others take nothing out of a collection.
  | del ks => exact iff_of_true hs.all.del trivial
  | expire key ttl => exact iff_of_true (hs.all.expire env.now key ttl) trivial
  | persist key => exact iff_of_true (hs.all.persist key) trivial
  | flush => exact iff_of_true Store.noEmpty_empty trivial
  | get key | strlen key => exact iff_of_true (hs.all.get env.now key) trivial
  | set key val ttl nx xx =>
    refine iff_of_true ?_ trivial
    simp only [run]
    split
    · exact hs
    · split
      · exact hs
      · exact hs.insert_iff.mpr rfl
  | setnx key val =>
    refine iff_of_true ?_ trivial
    simp only [run]
    split
    · exact hs
    · exact hs.insert_iff.mpr rfl
  | getset key val =>
    exact iff_of_true ((hs.all.get env.now key).set rfl) trivial
  | mget ks => exact iff_of_true (all_mgetLoop env.now hs.all) trivial
  | mset pairs => exact iff_of_true (all_msetLoop (fun _ => rfl) env.now hs.all) trivial
  | append key suffix =>
    rw [run, store_of]
    exact iff_of_true (hs.upsert fun _ => rfl) trivial
  | incrby key delta record =>
    rw [run, store_of]
    exact iff_of_true (hs.upsert fun _ => rfl) trivial
  | lset => exact iff_of_true (noEmpty_lset hs) trivial
  | linsert => exact iff_of_true (noEmpty_linsert hs) trivial
  | hset key pairs =>
    rw [run, store_of]
    exact iff_of_true (all_hsetLoop RedisHash.isEmpty_hset key hs.all) trivial
  | hsetnx key field val =>
    rw [run, Outcome.change, store_of]
    exact iff_of_true (hs.upsert fun h => h.isEmpty_hsetnx field val) trivial
  | hincrby => exact iff_of_true (noEmpty_hincrby hs) trivial
  | hincrbyfloat => exact iff_of_true (noEmpty_hincrbyfloat hs) trivial
  | zincrby key delta member =>
    rw [run, Outcome.change, store_of]
    exact iff_of_true (hs.upsert fun z => z.isEmpty_put member _) trivial
  | answer | info | debugObject | existsKeys | type | ttl | pttl | keys | dbsize | hmget =>
    exact iff_of_true hs trivial
  | llen | lrange | lindex | hget | hgetall | hlen | hexists | hkeys | hvals | smembers | sismember
  | scard | srandmember | combine | zscore | zrank | zrevrank | zcard | zcount | zrange
  | zrangebyscore =>
    rw [run, Outcome.query, Outcome.change, store_of]
    exact iff_of_true hs trivial

end Request

/-! ## Runs -/

/-- A data command that a node executes : for a client, a replay or the Raft log, at some time,
and with some answers of the other nodes and of the log. -/
structure DataCommand where
  ctx : CommandContext
  env : Env
  peer : String → Frame → Frame
  log : List Frame → Frame
  frame : Frame

/-- Only `CLUSTER` and `MIGRATE` are served with the other nodes. -/
theorem route_ne_remote {ctx : CommandContext} {frame : Frame} (hdata : isData frame = true)
    {name : String} {args : List Frame} : route ctx frame ≠ .remote name args := by
  have hhere (n : String) (as : List Frame) (h : ¬ (n = "CLUSTER" ∨ n = "MIGRATE")) :
      routeHere ctx n as ≠ .remote name args := by
    rw [routeHere, if_neg h]
    split <;> simp
  cases hname : frameName frame with
  | none =>
    obtain ⟨f, hf⟩ := route_of_no_frameName hname ctx
    simp [hf]
  | some n =>
    obtain ⟨as, rfl, hroute⟩ := route_of_frameName hname
    have hn : ¬ (n = "CLUSTER" ∨ n = "MIGRATE") := by
      obtain ⟨cmd, hcmd, rfl⟩ := Option.map_eq_some_iff.mp hname
      simpa [isData, hcmd] using hdata
    rw [hroute]
    unfold routeCommand
    split
    · split <;> simp
    · next cfg _ _ _ =>
      split
      · exact hhere n as hn
      · cases hc : clusterRoute cfg n as with
        | none => exact hhere n as hn
        | some r =>
          have haway := (clusterRoute_isAway hc).1
          rintro rfl
          cases haway
    · exact hhere n as hn

namespace DataCommand

/-- The store of the node after the command. -/
def step (s : Store) (c : DataCommand) : Option Store :=
  if isData c.frame = true then
    some (execute c.ctx (elsewhereWith c.env c.peer c.log) c.env c.frame s).store
  else none

/-- What the command asks of the store leaves no empty collection. -/
def LeavesFull (s : Store) (c : DataCommand) : Prop :=
  ∀ r, requestOf c.ctx c.frame = some r → r.LeavesFull s

variable {s t : Store} {c : DataCommand}

/-- A data command is answered without the store, or makes a request of it. -/
theorem step_cases (h : step s c = some t) :
    (∃ r, requestOf c.ctx c.frame = some r ∧ t = (r.run c.ctx c.env s).store) ∨
      requestOf c.ctx c.frame = none ∧ t = s := by
  unfold step at h
  split at h
  · next hdata =>
    have ht := (Option.some.inj h).symm
    unfold execute at ht
    cases hroute : route c.ctx c.frame with
    | dispatch name args =>
      simp only [hroute, dispatch] at ht
      cases hread : readCommand c.ctx name args with
      | ok r =>
        refine Or.inl ⟨r, by simp [requestOf, hroute, hread, Except.toOption], ?_⟩
        simpa only [hread] using ht
      | error f =>
        refine Or.inr ⟨by simp [requestOf, hroute, hread, Except.toOption], ?_⟩
        simpa only [hread] using ht
    | reply | propose | proxy =>
      refine Or.inr ⟨by simp [requestOf, hroute], ?_⟩
      simpa only [hroute, elsewhereWith] using ht
    | remote name args => exact absurd hroute (route_ne_remote hdata)
  · cases h

/-- One step keeps the store free of empty collections exactly under the condition. -/
theorem noEmpty_step_iff (hs : s.NoEmpty) (h : step s c = some t) :
    t.NoEmpty ↔ c.LeavesFull s := by
  rcases step_cases h with ⟨r, hr, rfl⟩ | ⟨hnone, rfl⟩
  · rw [LeavesFull, hr]
    simp only [Option.some.injEq, forall_eq']
    exact Request.noEmpty_run_iff hs r
  · exact iff_of_true hs fun r hr => by simp [hnone] at hr

end DataCommand

/-- In every run of data commands from the empty store in which each step meets its condition,
no key holds an empty collection, and what `EXISTS`, `TYPE` and `KEYS` report holds something.
In the next step this stays so exactly if that step meets its condition too. -/
theorem no_empty_collections {s : Store}
    (hrun : Runs.Run DataCommand.step DataCommand.LeavesFull ∅ s) :
    s.NoEmpty ∧
    (∀ (env : Env) (k : String),
      s.exists_ env.now k = true ∨ s.typeOf env.now k ≠ "none" ∨ k ∈ s.allKeys env →
      ∃ e, s[k]? = some e ∧ e.value.isEmpty = false) ∧
    ∀ c t, DataCommand.step s c = some t → (t.NoEmpty ↔ c.LeavesFull s) := by
  have hs : s.NoEmpty := hrun.invariant
    (fun _ _ _ hs hc hstep => (DataCommand.noEmpty_step_iff hs hstep).mpr hc) Store.noEmpty_empty
  exact ⟨hs, fun _ _ h => hs.reported h, fun _ _ h => DataCommand.noEmpty_step_iff hs h⟩

section Emptied

/-- A command of the words for a client of a single node. -/
def DataCommand.ofWords (words : List String) : DataCommand :=
  ⟨.standalone, .plain 0, fun _ _ => .ok, fun _ => .ok, .command words⟩

/-- The length of the list at a key. -/
def Store.listLength (s : Store) (key : String) : Option ℕ :=
  s[key]?.bind fun e => (Kind.list.view e.value).map RedisList.len

/-- `LPOP` takes the only element of a list and leaves the list, which `EXISTS` and `TYPE`
report. -/
theorem empty_list_stays : ∃ s, Runs.Run DataCommand.step (fun _ _ => True) ∅ s ∧
    s.listLength "l" = some 0 ∧ s.exists_ 0 "l" = true ∧ s.typeOf 0 "l" = "list" := by
  have hrun : (Runs.exec DataCommand.step (fun _ _ => True) ∅
      [.ofWords ["RPUSH", "l", "a"], .ofWords ["LPOP", "l"]]).any (fun s =>
        s.listLength "l" = some 0 ∧ s.exists_ 0 "l" = true ∧ s.typeOf 0 "l" = "list") = true := by
    decide
  obtain ⟨s, hs, hp⟩ := Runs.exists_run_of_exec hrun
  exact ⟨s, hs, of_decide_eq_true hp⟩

/-- `LPOP` takes one of two elements. -/
theorem second_element_stays : ∃ s, Runs.Run DataCommand.step DataCommand.LeavesFull ∅ s ∧
    s.listLength "l" = some 1 ∧ s.NoEmpty := by
  have hpush : requestOf .standalone (.command ["RPUSH", "l", "a", "b"]) =
      some (.push false "l" [Utf8.toBytes "a", Utf8.toBytes "b"]) := rfl
  have hpop : requestOf .standalone (.command ["LPOP", "l"]) = some (.pop true "l" 1 false) := rfl
  obtain ⟨s, hs⟩ : ∃ s, DataCommand.step ∅ (.ofWords ["RPUSH", "l", "a", "b"]) = some s :=
    ⟨_, rfl⟩
  obtain ⟨t, ht⟩ : ∃ t, DataCommand.step s (.ofWords ["LPOP", "l"]) = some t := ⟨_, rfl⟩
  have hrun : Runs.Run DataCommand.step DataCommand.LeavesFull ∅ t := by
    refine .tail (.tail (.refl ∅) (fun r hr => ?_) hs) (fun r hr => ?_) ht
    · obtain rfl := Option.some.inj (hpush.symm.trans hr)
      exact Or.inl (List.cons_ne_nil _ _)
    · obtain rfl := Option.some.inj (hpop.symm.trans hr)
      obtain rfl := Option.some.inj hs
      intro e l he hv
      obtain rfl := Option.some.inj he
      obtain rfl := Option.some.inj hv
      decide
  refine ⟨t, hrun, ?_, (no_empty_collections hrun).1⟩
  obtain rfl := Option.some.inj hs
  obtain rfl := Option.some.inj ht
  decide

end Emptied

end LoonyRedis
