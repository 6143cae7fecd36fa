import LoonyRedis.SameContents

/-!
# What leaves a store as it is

For each change to a value, when the value contains afterwards what it contained before,
and for each pattern of store methods, when the store does.
-/

namespace LoonyRedis

open Std

/-! ## Lists -/

namespace RedisList

variable {l : RedisList}

/-- A removal at one end. -/
structure Pops (pop : RedisList → Option Bytes × RedisList) : Prop where
  none_iff : ∀ l, (pop l).1 = none ↔ l.toVec = []
  length : ∀ l, (pop l).2.toVec.length = l.toVec.length - 1

/-- `popFront` takes one element, if there is one. -/
theorem pops_front : Pops popFront where
  none_iff l := by simp [popFront]
  length l := by simp [popFront]

/-- `popBack` takes one element, if there is one. -/
theorem pops_back : Pops popBack where
  none_iff l := by simp [popBack]
  length l := by simp [popBack]

/-- Only a removal from an empty list changes nothing. -/
theorem Pops.toVec_eq_iff {pop : RedisList → Option Bytes × RedisList} (hpop : Pops pop) :
    (pop l).2.toVec = l.toVec ↔ (pop l).1 = none := by
  have hlen := hpop.length l
  rw [hpop.none_iff]
  constructor
  · intro h
    rw [h] at hlen
    rw [← List.length_eq_zero_iff]
    omega
  · intro h
    rw [h, List.length_nil, Nat.zero_sub, List.length_eq_zero_iff] at hlen
    rw [hlen, h]

/-- Popping adds no elements. -/
theorem length_popN_le {pop : RedisList → Option Bytes × RedisList} (hpop : Pops pop) :
    ∀ (n : ℕ) (l : RedisList), (popN pop n l).2.toVec.length ≤ l.toVec.length
  | 0, _ => le_rfl
  | n + 1, l => by
    have hlen := hpop.length l
    unfold popN
    split
    · next l' heq =>
      have ih := length_popN_le hpop n l'
      rw [heq] at hlen
      simp only at hlen ⊢
      omega
    · next l' heq =>
      rw [heq] at hlen
      simp only at hlen ⊢
      omega

/-- Popping changes every list that has an element. -/
theorem toVec_popN_eq_iff {pop : RedisList → Option Bytes × RedisList} (hpop : Pops pop)
    {n : ℕ} (hn : 0 < n) : (popN pop n l).2.toVec = l.toVec ↔ l.toVec = [] := by
  obtain ⟨n, rfl⟩ := Nat.exists_eq_add_of_lt hn
  rw [Nat.zero_add]
  have hlen := hpop.length l
  have hnone := hpop.none_iff l
  constructor
  · intro h
    by_contra hne
    have hpos := List.length_pos_iff.mpr hne
    unfold popN at h
    split at h
    · next l' heq =>
      have hle := length_popN_le hpop n l'
      rw [heq] at hlen
      simp only [h] at hlen hle
      omega
    · next heq => exact hne (hnone.mp (by rw [heq]))
  · intro h
    have hle := length_popN_le hpop (n + 1) l
    rw [h, List.length_nil, Nat.le_zero, List.length_eq_zero_iff] at hle
    rw [hle, h]

/-- An element that is overwritten with itself. -/
theorem toVec_setIndex_eq_iff {i : ℕ} (hi : i < l.toVec.length) {val : Bytes} :
    (l.setIndex i val).2.toVec = l.toVec ↔ l.toVec[i]? = some val := by
  rw [setIndex, len, if_pos hi, toVec_map]
  constructor
  · intro h
    rw [← h, List.getElem?_set_self hi]
  · intro h
    obtain ⟨_, rfl⟩ := List.getElem?_eq_some_iff.mp h
    exact List.set_getElem_self hi

/-- An insertion changes the list if the pivot is there. -/
theorem toVec_insertAt_eq_iff {n : ℕ} {pivot val : Bytes} (hn : n ≤ 1) :
    (l.insertAt n pivot val).2.toVec = l.toVec ↔ pivot ∉ l.toVec := by
  unfold insertAt
  split
  · next h =>
    rw [position, List.findIdx?_eq_none_iff] at h
    exact iff_of_true rfl fun hmem => by simpa using h pivot hmem
  · next pos h =>
    rw [position, List.findIdx?_eq_some_iff_getElem] at h
    obtain ⟨hlt, hpos, -⟩ := h
    have hmem : pivot ∈ l.toVec := by
      rw [← of_decide_eq_true hpos]
      exact List.getElem_mem hlt
    refine iff_of_false (fun heq => ?_) (not_not.mpr hmem)
    have hlen := congrArg List.length heq
    simp only [toVec_map, toVec_fit, List.length_insertIdx] at hlen
    split at hlen <;> omega

/-- The dropped elements and those that are left add up. -/
theorem dropVal_length (val : Bytes) : ∀ (limit : ℕ) (items : List Bytes),
    (dropVal val limit items).1 + (dropVal val limit items).2.length = items.length
  | _, [] => by simp [dropVal]
  | 0, _ :: _ => by simp [dropVal]
  | limit + 1, b :: items => by
    unfold dropVal
    split
    · have ih := dropVal_length val limit items
      simp only [List.length_cons]
      omega
    · have ih := dropVal_length val (limit + 1) items
      simp only [List.length_cons]
      omega

/-- If none is dropped, all are left. -/
theorem dropVal_of_fst_eq_zero {val : Bytes} : ∀ {limit : ℕ} {items : List Bytes},
    (dropVal val limit items).1 = 0 → (dropVal val limit items).2 = items
  | _, [], _ => by simp [dropVal]
  | 0, _ :: _, _ => by simp [dropVal]
  | limit + 1, b :: items, h => by
    unfold dropVal at h ⊢
    split at h
    · cases h
    · next hb =>
      rw [if_neg hb]
      exact congrArg (List.cons b) (dropVal_of_fst_eq_zero h)

theorem dropVal_eq_iff {val : Bytes} {limit : ℕ} {items : List Bytes} :
    (dropVal val limit items).2 = items ↔ (dropVal val limit items).1 = 0 := by
  have hlen := dropVal_length val limit items
  refine ⟨fun h => ?_, dropVal_of_fst_eq_zero⟩
  rw [h] at hlen
  omega

/-- A removal changes the list if the value is there, whatever the count. -/
theorem toVec_lrem_eq_iff {count : Text.I64} {val : Bytes} :
    (l.lrem count val).2.toVec = l.toVec ↔ val ∉ l.toVec := by
  rw [← @lrem_fst_eq_zero l count val]
  unfold lrem
  split
  · exact dropVal_eq_iff
  · split
    · rw [← dropVal_eq_iff]
      exact List.reverse_eq_iff
    · exact dropVal_eq_iff

/-- No position of the list is cut off by `ltrim`. -/
def TrimsNothing (l : RedisList) (start stop : ℤ) : Prop :=
  Text.asUsize (max (if start < 0 then Text.wrap (l.len + start) else start) 0) = 0 ∧
    l.len ≤ Text.addUsize (Text.asUsize
      (max (min (if stop < 0 then Text.wrap (l.len + stop) else stop) (l.len - 1)) (-1))) 1

/-- A range is the whole list. -/
theorem range_eq_iff {i j : ℕ} (hne : l.toVec ≠ []) :
    l.range i j = l.toVec ↔ i = 0 ∧ l.len ≤ j := by
  have hpos : 0 < l.len := List.length_pos_iff.mpr hne
  have hlen : l.toVec.length = l.len := rfl
  simp only [range]
  split
  · exact iff_of_false (fun h => hne h.symm) (by omega)
  · constructor
    · intro h
      have hsum := congrArg List.length h
      rw [List.length_take, List.length_drop, hlen] at hsum
      omega
    · rintro ⟨rfl, hj⟩
      rw [List.drop_zero, Nat.min_eq_right hj, Nat.sub_zero, len, List.take_length]

/-- A trim changes nothing if the window has all positions. -/
theorem toVec_ltrim_eq_iff {start stop : ℤ} :
    (l.ltrim start stop).toVec = l.toVec ↔ l.toVec = [] ∨ l.TrimsNothing start stop := by
  simp only [ltrim, TrimsNothing]
  generalize Text.asUsize (max (if start < 0 then (Text.wrap (l.len + start)).1 else start) 0) = i
  generalize Text.asUsize
    (max (min (if stop < 0 then (Text.wrap (l.len + stop)).1 else stop) (l.len - 1)) (-1)) = j
  by_cases hnil : l.toVec = []
  · have hzero : (l.len : ℤ) = 0 := by rw [Int.natCast_eq_zero, len_eq_zero, hnil]
    rw [if_pos (Or.inr hzero), hnil]
    simp [toVec]
  · have hlen : (l.len : ℤ) ≠ 0 := by
      rw [Ne, Int.natCast_eq_zero, len_eq_zero]
      exact hnil
    rw [or_iff_right hnil]
    simp only [hlen, or_false]
    split
    · exact iff_of_false (fun h => hnil h.symm) (by omega)
    · exact range_eq_iff hnil

/-- A list that is shifted by one place over itself. -/
theorem append_singleton_eq_cons_iff {x : Bytes} : ∀ {v : List Bytes},
    v ++ [x] = x :: v ↔ ∀ y ∈ v, y = x
  | [] => by simp
  | z :: v => by
    rw [List.cons_append, List.cons.injEq, List.forall_mem_cons]
    refine and_congr_right fun hz => ?_
    rw [hz]
    exact append_singleton_eq_cons_iff

/-- All elements are the same. -/
def Constant (l : RedisList) : Prop := ∀ x ∈ l.toVec, ∀ y ∈ l.toVec, x = y

/-- A list with the head `b` is constant if its other elements are `b`. -/
theorem constant_iff {b : Bytes} {v : List Bytes} (h : ∀ x, x ∈ l.toVec ↔ x = b ∨ x ∈ v) :
    l.Constant ↔ ∀ y ∈ v, y = b := by
  simp only [Constant, h]
  constructor
  · intro hall y hy
    exact hall y (Or.inr hy) b (Or.inl rfl)
  · intro hall x hx y hy
    have heq (x : Bytes) (hx : x = b ∨ x ∈ v) : x = b := hx.elim id (hall x)
    rw [heq x hx, heq y hy]

/-- An element that is taken from one end and put back at one. -/
theorem toVec_rotate_eq_iff {fromLeft toLeft : Bool} {b : Bytes}
    (hb : (if fromLeft then l.popFront else l.popBack).1 = some b) :
    (if toLeft then (if fromLeft then l.popFront else l.popBack).2.pushFront b
      else (if fromLeft then l.popFront else l.popBack).2.pushBack b).toVec = l.toVec ↔
      fromLeft = toLeft ∨ l.Constant := by
  cases fromLeft with
  | true =>
    simp only [popFront, if_true, List.head?_eq_some_iff] at hb ⊢
    obtain ⟨v, hv⟩ := hb
    cases toLeft with
    | true => simp [hv]
    | false =>
      rw [constant_iff (b := b) (v := v) fun x => by rw [hv, List.mem_cons]]
      simp [hv, append_singleton_eq_cons_iff]
  | false =>
    simp only [popBack, Bool.false_eq_true, if_false, List.getLast?_eq_some_iff] at hb ⊢
    obtain ⟨v, hv⟩ := hb
    cases toLeft with
    | true =>
      rw [constant_iff (b := b) (v := v) fun x => by
        rw [hv, List.mem_append, List.mem_singleton, or_comm], ← append_singleton_eq_cons_iff]
      simp [hv, eq_comm]
    | false => simp [hv]

end RedisList

/-! ## Hashes -/

namespace RedisHash

variable {h : RedisHash} {field value : Bytes}

/-- A removal changes the hash if one of the fields is there. -/
theorem get_hdel_eq_iff {fields : List Bytes} :
    (h.hdel fields).2.get = h.get ↔ ∀ f ∈ fields, h.get f = none := by
  rw [funext_iff]
  refine forall_congr' fun f => ?_
  rw [get_hdel]
  by_cases hf : f ∈ fields
  · simp [hf, eq_comm]
  · simp [hf]

/-- A field that is overwritten with its value. -/
theorem get_hset_eq_iff : (h.hset field value).2.get = h.get ↔ h.get field = some value := by
  rw [funext_iff]
  simp only [get_hset]
  constructor
  · intro heq
    rw [← heq field, if_pos rfl]
  · intro hget f
    split
    · next hf => rw [← hf, hget]
    · rfl

/-- A field that is there is left alone. -/
theorem get_hsetnx_eq_iff : (h.hsetnx field value).2.get = h.get ↔ h.get field ≠ none := by
  rw [funext_iff]
  simp only [get_hsetnx]
  constructor
  · intro heq hnone
    have hfield := heq field
    rw [if_pos rfl, hnone] at hfield
    cases hfield
  · intro hne f
    split
    · next hf =>
      obtain ⟨w, hw⟩ := Option.ne_none_iff_exists'.mp hne
      rw [← hf, hw, Option.getD_some]
    · rfl

end RedisHash

/-! ## Sets -/

namespace RedisSet

variable {t : RedisSet}

/-- A removal changes the set if one of the members is there. -/
theorem contains_srem_eq_iff {ms : List Bytes} :
    (t.srem ms).2.contains = t.contains ↔ ∀ m ∈ ms, t.contains m = false := by
  rw [funext_iff]
  refine forall_congr' fun m => ?_
  rw [Bool.eq_iff_iff, contains_srem]
  by_cases hm : m ∈ ms <;> simp [hm]

/-- A removal changes nothing exactly if the member is not there. -/
theorem contains_removeOne_eq_iff {m : Bytes} :
    (t.removeOne m).2.contains = t.contains ↔ t.contains m = false := by
  rw [funext_iff]
  constructor
  · intro h
    have hm := h m
    rw [Bool.eq_iff_iff, contains_removeOne] at hm
    simpa using hm
  · intro h x
    rw [Bool.eq_iff_iff, contains_removeOne, and_iff_right_iff_imp]
    rintro hx rfl
    rw [h] at hx
    cases hx

/-- No member is new exactly if all are there. -/
theorem contains_of_sadd_fst : ∀ {ms : List Bytes} {t : RedisSet}, (t.sadd ms).1 = 0 →
    (t.sadd ms).2.contains = t.contains
  | [], _, _ => rfl
  | m :: ms, t, h => by
    rw [sadd] at h ⊢
    obtain ⟨hadd, hrest⟩ := Nat.add_eq_zero_iff.mp h
    rw [contains_of_sadd_fst hrest]
    have hm : t.contains m = true := by
      rw [addOne_fst] at hadd
      by_contra hm
      rw [if_neg hm] at hadd
      cases hadd
    ext x : 1
    rw [Bool.eq_iff_iff, contains_addOne, or_iff_right_iff_imp]
    rintro rfl
    exact hm

theorem sadd_fst_new_ne_zero {ms : List Bytes} (hne : ms ≠ []) : (new.sadd ms).1 ≠ 0 := by
  cases ms with
  | nil => exact absurd rfl hne
  | cons m ms =>
    rw [sadd, addOne_fst, contains_new]
    exact fun h => absurd (Nat.add_eq_zero_iff.mp h).1 (by simp)

/-- Something is popped if there is a member and the count is not 0. -/
theorem contains_spop_eq_iff {env : Env} {count : ℕ} :
    (t.spop env count).2.contains = t.contains ↔ t.len = 0 ∨ count = 0 := by
  rw [← @spop_fst_eq_nil env]
  by_cases hempty : t.members env = []
  · simp [spop, hempty]
  · simp only [spop, if_neg hempty]
    constructor
    · intro h
      refine List.eq_nil_iff_forall_not_mem.mpr fun m hm => ?_
      have hmem : m ∈ t.members env :=
        (env.shuffle_perm _).mem_iff.mp (List.mem_of_mem_take hm)
      have hkept := mem_members.mp hmem
      rw [← h] at hkept
      exact (contains_removeEach.mp hkept).1 hm
    · intro h
      rw [h]
      rfl

end RedisSet

/-! ## Sorted sets -/

namespace ZSet

variable {z : ZSet}

/-- A score that is its own sum. -/
theorem zincrby_eq_iff {delta : F64} {m : Bytes} :
    (z.zincrby delta m).2 = z ↔ ∃ x, z.scores[m]? = some x ∧ x.add delta = x := by
  simp only [zincrby, put_eq_iff]
  cases z.scores[m]? with
  | none => simp
  | some x => simp [eq_comm]

/-- A removal changes the set if one of the members is there. -/
theorem zrem_eq_iff {ms : List Bytes} : (z.zrem ms).2 = z ↔ ∀ m ∈ ms, z.scores[m]? = none := by
  rw [eq_iff_scores]
  refine forall_congr' fun m => ?_
  rw [(zrem_spec ms z).2]
  by_cases hm : m ∈ ms
  · simp [hm, eq_comm]
  · simp [hm]

/-- A removal by rank changes the set if the window has a rank. -/
theorem zremrangebyrank_eq_iff {start stop : ℤ} :
    (z.zremrangebyrank start stop).2 = z ↔ Store.EmptyWindow z.len start stop := by
  rw [Store.EmptyWindow, ← zremrangebyrank_fst_eq_zero, zremrangebyrank, zrem_eq_iff,
    (zrem_spec _ z).1]

/-- A removal by score changes the set if there is a member in the range. -/
theorem zremrangebyscore_eq_iff {lo hi : ScoreBound} :
    (z.zremrangebyscore lo hi).2 = z ↔ z.inRange lo hi = [] := by
  rw [zremrangebyscore, zrem_eq_iff]
  constructor
  · intro h
    refine List.eq_nil_iff_forall_not_mem.mpr fun p hp => ?_
    have hnone := h p.1 (List.mem_map_of_mem hp)
    simpa [hnone] using isSome_of_mem (List.mem_of_mem_filter hp)
  · intro h
    simp [h]

/-- Popping adds no member. -/
theorem scores_zpop {pick : ZSet → Option ScoreKey} : ∀ (n : ℕ) (z : ZSet) (m : Bytes),
    z.scores[m]? = none → (zpop pick n z).2.scores[m]? = none
  | 0, _, _, h => h
  | n + 1, z, m, h => by
    unfold zpop
    split
    · next k _ =>
      refine scores_zpop n _ m ?_
      rw [scores_remove, h, ite_self]
    · exact h

/-- A pop changes the set, unless there is nothing to pop. -/
theorem zpop_eq_iff {pick : ZSet → Option ScoreKey} {n : ℕ}
    (hpick : ∀ k, pick z = some k → k ∈ z.byScore) :
    (zpop pick n z).2 = z ↔ n = 0 ∨ pick z = none := by
  cases n with
  | zero => simp [zpop]
  | succ n =>
    unfold zpop
    split
    · next k hk =>
      refine iff_of_false (fun h => ?_) (by simp [hk])
      obtain ⟨x, hx, -⟩ := mem_byScore.mp (hpick k hk)
      have hgone : (zpop pick n (z.remove k.member)).2.scores[k.member]? = none := by
        refine scores_zpop n _ _ ?_
        rw [scores_remove, if_pos rfl]
      rw [show (zpop pick n (z.remove k.member)).2 = z from h, hx] at hgone
      cases hgone
    · next hk => simp [hk]

theorem zpopmin_eq_iff {count : ℕ} : (z.zpopmin count).2 = z ↔ count = 0 ∨ z.len = 0 := by
  rw [zpopmin, zpop_eq_iff fun k hk => ExtTreeSet.min?_mem hk, ← byScore_eq_empty,
    ExtTreeSet.min?_eq_none_iff]

theorem zpopmax_eq_iff {count : ℕ} : (z.zpopmax count).2 = z ↔ count = 0 ∨ z.len = 0 := by
  rw [zpopmax, zpop_eq_iff fun k hk => ExtTreeSet.max?_mem hk, ← byScore_eq_empty,
    ExtTreeSet.max?_eq_none_iff]

end ZSet

section Zadd

variable {key : String} (flags : ZaddFlags) {s : Store} {e : Entry} {z : ZSet}

/-- What the loop of `cmd_zadd` counts. -/
theorem zaddLoop_fst : ∀ (steps : List ZaddStep) {s : Store} {e : Entry} {z : ZSet},
    s[key]? = some e → Kind.zset.view e.value = some z → steps.any ZaddStep.isBad = false →
    (zaddLoop key flags steps s).1 = .ok (ZSet.zaddCounts flags (ZaddStep.applied steps) z)
  | [], _, _, _, _, _, _ => rfl
  | .skip :: steps, s, e, z, hkey, hv, hbad => zaddLoop_fst steps hkey hv hbad
  | .bad :: _, _, _, _, _, _, hbad => by cases hbad
  | .add x m :: steps, s, e, z, hkey, hv, hbad => by
    have hstep := Store.zadd_some hkey hv x m flags.nx flags.xx flags.gt flags.lt
    have ih := zaddLoop_fst steps (s := s.insert key { e with
        value := Kind.zset.wrap (z.zadd x m flags.nx flags.xx flags.gt flags.lt).2 })
      FinMap.getElem?_insert_self (Kind.zset.view_wrap _) hbad
    simp only [zaddLoop, hstep, ih, ZaddStep.applied, ZSet.zaddCounts, Except.map]

/-- Once a pair is read, a missing key is as good as an empty sorted set. -/
theorem zaddLoop_insert_new (hkey : s[key]? = none) : ∀ steps : List ZaddStep,
    ZaddStep.applied steps ≠ [] →
    zaddLoop key flags steps (s.insert key ⟨Kind.zset.wrap ZSet.new, none⟩) =
      zaddLoop key flags steps s
  | [], h => absurd rfl h
  | .skip :: steps, h => zaddLoop_insert_new hkey steps h
  | .bad :: _, h => absurd rfl h
  | .add x m :: steps, h => by
    have hstep : Store.zadd key x m flags.nx flags.xx flags.gt flags.lt
          (s.insert key ⟨Kind.zset.wrap ZSet.new, none⟩) =
        s.zadd key x m flags.nx flags.xx flags.gt flags.lt := by
      rw [Store.zadd, Store.upsert_some FinMap.getElem?_insert_self (Kind.zset.view_wrap _),
        Store.upsert_none hkey, FinMap.insert_insert]
    rw [zaddLoop, zaddLoop, hstep]

end Zadd

/-! ## Stores -/

namespace Store

variable {α β : Type} {K : Kind α} {key : String} {s : Store}

/-- If `key` holds a value of the type, then one with `P`. -/
def IfHeld (K : Kind α) (key : String) (P : α → Prop) (s : Store) : Prop :=
  ∀ e a, s[key]? = some e → K.view e.value = some a → P a

theorem ifHeld_of_none {P : α → Prop} (h : s[key]? = none) : s.IfHeld K key P := by
  intro e a he
  rw [h] at he
  cases he

theorem ifHeld_of_wrong {P : α → Prop} {e : Entry} (h : s[key]? = some e)
    (hv : K.view e.value = none) : s.IfHeld K key P := by
  intro e' a he' hv'
  obtain rfl : e = e' := Option.some.inj (h.symm.trans he')
  rw [hv] at hv'
  cases hv'

/-- The condition is on the value that is held. -/
theorem ifHeld_iff {P : α → Prop} {e : Entry} {a : α} (h : s[key]? = some e)
    (hv : K.view e.value = some a) : s.IfHeld K key P ↔ P a := by
  refine ⟨fun hP => hP e a h hv, fun ha e' a' he' hv' => ?_⟩
  obtain rfl : e = e' := Option.some.inj (h.symm.trans he')
  obtain rfl : a = a' := Option.some.inj (hv.symm.trans hv')
  exact ha

/-- An entry with the contents that the key has. -/
theorem contents_insert_eq_iff {k : String} {e : Entry} :
    contents (s.insert k e) = s.contents ↔ s.contents k = some e.value.content := by
  rw [contents_insert]
  constructor
  · intro h
    simp [← h]
  · intro h
    ext k' : 1
    split
    · next hk => rw [← hk, h]
    · rfl

/-- Writing a value back keeps the contents exactly if it contains what it did. -/
theorem contents_insert_wrap_eq_iff {e : Entry} {a a' : α} (h : s[key]? = some e)
    (hv : K.view e.value = some a) :
    contents (s.insert key { e with value := K.wrap a' }) = s.contents ↔ K.Same a' a := by
  rw [contents_insert_eq_iff, contents, h, Option.map_some, Option.some.injEq, Kind.Same,
    K.wrap_view hv, eq_comm]

/-- A key that is created changes the contents. -/
theorem contents_insert_of_none {e : Entry} (h : s[key]? = none) :
    contents (s.insert key e) ≠ s.contents := by
  rw [Ne, contents_insert_eq_iff, contents, h]
  simp

section Patterns

variable {f : α → Except String β × α} {dflt : β} {init : α}

/-- A change in place leaves the contents if the value keeps its own. -/
theorem contents_update_eq_iff : (update K key dflt f s).2.contents = s.contents ↔
    s.IfHeld K key fun a => K.Same (f a).2 a := by
  cases hs : s[key]? with
  | none =>
    rw [update_none hs]
    exact iff_of_true rfl (ifHeld_of_none hs)
  | some e =>
    cases hv : K.view e.value with
    | none =>
      rw [update_wrong hs hv]
      exact iff_of_true rfl (ifHeld_of_wrong hs hv)
    | some a => rw [update_some hs hv, ifHeld_iff hs hv, contents_insert_wrap_eq_iff hs hv]

/-- A key that is created changes the contents, whatever the change. -/
theorem contents_upsert_eq_iff : (upsert K key init f s).2.contents = s.contents ↔
    s[key]? ≠ none ∧ s.IfHeld K key fun a => K.Same (f a).2 a := by
  cases hs : s[key]? with
  | none =>
    rw [upsert_none hs]
    exact iff_of_false (contents_insert_of_none hs) fun h => h.1 rfl
  | some e =>
    rw [and_iff_right (Option.some_ne_none e)]
    cases hv : K.view e.value with
    | none =>
      rw [upsert_wrong hs hv]
      exact iff_of_true rfl (ifHeld_of_wrong hs hv)
    | some a => rw [upsert_some hs hv, ifHeld_iff hs hv, contents_insert_wrap_eq_iff hs hv]

/-- A move keeps the contents if there is nothing to take, or if it gives back to the same
key what it took. -/
theorem contents_move_eq_iff {src dst : String} {take : α → Option β × α} {give : β → α → α}
    (htake : ∀ a, K.Same (take a).2 a ↔ (take a).1 = none) :
    (move K src dst init take give s).2.contents = s.contents ↔
      s.IfHeld K src fun a => ∀ b, (take a).1 = some b →
        src = dst ∧ K.Same (give b (take a).2) a := by
  cases hs : s[src]? with
  | none =>
    rw [move_none hs]
    exact iff_of_true rfl (ifHeld_of_none hs)
  | some e =>
    cases hv : K.view e.value with
    | none =>
      rw [move_wrong hs hv]
      exact iff_of_true rfl (ifHeld_of_wrong hs hv)
    | some a =>
      rw [ifHeld_iff hs hv]
      cases hb : (take a).1 with
      | none =>
        rw [move_empty hs hv hb, contents_insert_wrap_eq_iff hs hv, htake]
        simp [hb]
      | some b =>
        simp only [Option.some.injEq, forall_eq']
        rw [move_some hs hv hb]
        by_cases hsd : src = dst
        · subst hsd
          rw [upsert_some FinMap.getElem?_insert_self (K.view_wrap _), FinMap.insert_insert,
            and_iff_right rfl]
          exact contents_insert_wrap_eq_iff (e := e) hs hv
        · refine iff_of_false (fun h => ?_) fun h => hsd h.1
          have hsrc : (upsert K dst init (fun a => done (some b, give b a))
              (s.insert src { e with value := K.wrap (take a).2 })).2.contents src =
              some (K.wrap (take a).2).content := by
            rw [upsert_snd, contents_insert, contents_insert]
            simp [Ne.symm hsd]
          have hsame := congrFun h src
          rw [hsrc, contents, hs, Option.map_some, Option.some.injEq, ← K.wrap_view hv] at hsame
          rw [(htake a).mp hsame] at hb
          cases hb

end Patterns

end Store

end LoonyRedis
