import LoonyRedis.SortedSet
import Mathlib.Data.List.Nodup

/-!
# The two indexes of a sorted set

`ZSet` carries the agreement of its indexes. The source does not : it has a hash map and a
tree, and each operation updates the one and then the other, taking the old key out of the
tree by encoding the stored score again. `Indexes` is that pair with nothing assumed of it,
and its operations are those of the source, update by update.

On indexes that agree the operations do what those of `ZSet` do (`ZOp.apply_indexes`), with
the same return values, so indexes that start empty agree after any operations
(`Indexes.run_eq`), and what the source relies on when it reads one index for the other
holds in all of them.
-/

namespace LoonyRedis

open Std

/-! ## The operations of the source -/

/-- The table of scores and the tree of keys. -/
structure Indexes where
  scores : ExtTreeMap Bytes F64 compare
  byScore : ExtTreeSet ScoreKey ScoreKey.cmp

namespace Indexes

/-- Both indexes are empty. -/
def new : Indexes := ⟨∅, ∅⟩

/-- The number of members. -/
def len (t : Indexes) : ℕ := t.scores.size

/-- Add or update a member in both indexes. -/
def zadd (t : Indexes) (score : F64) (member : Bytes) (nx xx gt lt : Bool) :
    (ℕ × ℕ) × Indexes :=
  if score.isNaN then ((0, 0), t)
  else match t.scores[member]? with
    | some old =>
      if nx then ((0, 0), t)
      else
        let newScore :=
          if gt then if old.lt score then score else old
          else if lt then if score.lt old then score else old
          else score
        if (newScore.sub old).abs.lt (F64.epsilon.mul (old.abs.max F64.one)) && newScore.eq old then
          ((0, 0), t)
        else
          let byScore := t.byScore.erase (ScoreKey.new old member)
          let scores := t.scores.insert member newScore
          ((0, 1), ⟨scores, byScore.insert (ScoreKey.new newScore member)⟩)
    | none =>
      if xx then ((0, 0), t)
      else ((1, 1), ⟨t.scores.insert member score, t.byScore.insert (ScoreKey.new score member)⟩)

/-- The score of a member. -/
def zscore (t : Indexes) (member : Bytes) : Option F64 := t.scores[member]?

/-- The number of keys up to `key`. -/
def countUpTo (t : Indexes) (key : ScoreKey) : ℕ :=
  (t.byScore.toList.filter fun k => (ScoreKey.cmp k key).isLE).length

/-- One less than the number of keys up to that of `member`, in unsigned arithmetic. -/
def zrank (t : Indexes) (member : Bytes) : Option ℕ :=
  (t.scores[member]?).map fun score => t.countUpTo (ScoreKey.new score member) - 1

/-- `add` is the sum of doubles : which NaN it gives is up to the processor. -/
def zincrby (add : F64 → F64 → F64) (t : Indexes) (delta : F64) (member : Bytes) :
    F64 × Indexes :=
  let old := t.scores[member]?.getD F64.zero
  let newScore := add old delta
  let byScore :=
    if t.scores.contains member then t.byScore.erase (ScoreKey.new old member) else t.byScore
  let scores := t.scores.insert member newScore
  (newScore, ⟨scores, byScore.insert (ScoreKey.new newScore member)⟩)

/-- Take `member` out of the table, and if it was there its key out of the tree. -/
def take (t : Indexes) (member : Bytes) : Indexes :=
  match t.scores[member]? with
  | some score => ⟨t.scores.erase member, t.byScore.erase (ScoreKey.new score member)⟩
  | none => t

/-- Remove members from both indexes, and count them. -/
def zrem (t : Indexes) : List Bytes → ℕ × Indexes
  | [] => (0, t)
  | m :: ms =>
    ((if t.scores.contains m then 1 else 0) + ((t.take m).zrem ms).1, ((t.take m).zrem ms).2)

/-- The members with their scores, decoded from the ordered index. -/
def allWithScores (t : Indexes) : List (Bytes × F64) :=
  t.byScore.toList.map fun k => (k.member, k.score)

/-- The members with ranks from `start` to `stop`. -/
def zrangeByRank (t : Indexes) (start stop : ℤ) (rev : Bool) : List (Bytes × F64) :=
  let (s, e) := Text.window t.len start stop
  if e ≤ s then []
  else
    let items := (t.allWithScores.drop s).take (e - s)
    if rev then items.reverse else items

/-- Pop the key that `pick` gives out of the tree, and its member out of the table. -/
def zpop (pick : Indexes → Option ScoreKey) : ℕ → Indexes → List (Bytes × F64) × Indexes
  | 0, t => ([], t)
  | n + 1, t =>
    match pick t with
    | some k =>
      let t' : Indexes := ⟨t.scores.erase k.member, t.byScore.erase k⟩
      ((k.member, k.score) :: (zpop pick n t').1, (zpop pick n t').2)
    | none => ([], t)

/-- Pop up to `count` members from the low end. -/
def zpopmin (t : Indexes) (count : ℕ) : List (Bytes × F64) × Indexes :=
  zpop (fun t => t.byScore.min?) count t

/-- Pop up to `count` members from the high end. -/
def zpopmax (t : Indexes) (count : ℕ) : List (Bytes × F64) × Indexes :=
  zpop (fun t => t.byScore.max?) count t

/-- Remove the members with ranks from `start` to `stop`. -/
def zremrangebyrank (t : Indexes) (start stop : ℤ) : ℕ × Indexes :=
  t.zrem ((t.zrangeByRank start stop false).map Prod.fst)

/-- Remove the members with a score in the range, and count them first. -/
def zremrangebyscore (t : Indexes) (lo hi : ScoreBound) : ℕ × Indexes :=
  let toRemove := (t.byScore.toList.filter fun k =>
    lo.satisfiesLower k.score && hi.satisfiesUpper k.score).map ScoreKey.member
  (toRemove.length, (t.zrem toRemove).2)

end Indexes

/-! ## On indexes that agree -/

namespace ZSet

/-- The indexes of a sorted set. -/
def indexes (z : ZSet) : Indexes := ⟨z.scores, z.byScore⟩

theorem indexes_put_of_some {z : ZSet} {member : Bytes} {old score : F64}
    (h : z.scores[member]? = some old) :
    (z.put member score).indexes = ⟨z.scores.insert member score,
      (z.byScore.erase (ScoreKey.new old member)).insert (ScoreKey.new score member)⟩ := by
  simp [indexes, put, withoutKey, h]

theorem indexes_put_of_none {z : ZSet} {member : Bytes} {score : F64}
    (h : z.scores[member]? = none) :
    (z.put member score).indexes = ⟨z.scores.insert member score,
      z.byScore.insert (ScoreKey.new score member)⟩ := by
  simp [indexes, put, withoutKey, h]

theorem zadd_indexes (z : ZSet) (score : F64) (member : Bytes) (nx xx gt lt : Bool) :
    z.indexes.zadd score member nx xx gt lt =
      Prod.map id indexes (z.zadd score member nx xx gt lt) := by
  unfold Indexes.zadd zadd
  split
  · rfl
  · have hscores : z.indexes.scores = z.scores := rfl
    rw [hscores]
    cases hold : z.scores[member]? with
    | some old =>
      cases nx with
      | true => rfl
      | false =>
        simp only [Bool.false_eq_true, ↓reduceIte, apply_ite (Prod.map id indexes),
          Prod.map_apply, id_eq, indexes_put_of_some hold]
        rfl
    | none =>
      cases xx with
      | true => rfl
      | false =>
        simp only [Bool.false_eq_true, ↓reduceIte, Prod.map_apply, id_eq,
          indexes_put_of_none hold]
        rfl

theorem zincrby_indexes (add : F64 → F64 → F64) (z : ZSet) (delta : F64) (member : Bytes) :
    (z.indexes.zincrby add delta member).2 =
      (z.put member (add (z.scores[member]?.getD F64.zero) delta)).indexes := by
  have hscores : z.indexes.scores = z.scores := rfl
  unfold Indexes.zincrby
  rw [hscores]
  cases hold : z.scores[member]? with
  | some old =>
    have hmem : z.scores.contains member = true := by
      rw [ExtTreeMap.contains_eq_isSome_getElem?, hold]
      rfl
    rw [indexes_put_of_some hold]
    simp only [hmem, ↓reduceIte, Option.getD_some]
    rfl
  | none =>
    have hmem : z.scores.contains member = false := by
      rw [ExtTreeMap.contains_eq_isSome_getElem?, hold]
      rfl
    rw [indexes_put_of_none hold]
    simp only [hmem, Bool.false_eq_true, ↓reduceIte, Option.getD_none]
    rfl

theorem take_indexes (z : ZSet) (member : Bytes) :
    z.indexes.take member = (z.remove member).indexes := by
  have hscores : z.indexes.scores = z.scores := rfl
  unfold Indexes.take
  rw [hscores]
  cases hold : z.scores[member]? with
  | some old =>
    simp only [remove, withoutKey, indexes, hold]
  | none =>
    simp only [remove, withoutKey, indexes, hold, FinMap.erase_of_getElem? hold]

theorem zrem_indexes : ∀ (members : List Bytes) (z : ZSet),
    z.indexes.zrem members = Prod.map id indexes (z.zrem members)
  | [], z => rfl
  | m :: ms, z => by
    unfold Indexes.zrem zrem
    rw [take_indexes, zrem_indexes ms (z.remove m)]
    rfl

/-- A key of the tree is the one that the score of its member gives. -/
theorem withoutKey_of_mem {z : ZSet} {k : ScoreKey} (hk : k ∈ z.byScore) :
    z.withoutKey k.member = z.byScore.erase k := by
  obtain ⟨score, hscore, henc⟩ := Option.map_eq_some_iff.mp ((z.agree k).mp hk)
  have hkey : ScoreKey.new score k.member = k := by
    rw [ScoreKey.new, henc]
  simp only [withoutKey, hscore, hkey]

theorem zpop_indexes {pick : ZSet → Option ScoreKey} {pick' : Indexes → Option ScoreKey}
    (hpick : ∀ z, pick' z.indexes = pick z) (hmem : ∀ z k, pick z = some k → k ∈ z.byScore) :
    ∀ (n : ℕ) (z : ZSet), Indexes.zpop pick' n z.indexes = Prod.map id indexes (zpop pick n z)
  | 0, z => rfl
  | n + 1, z => by
    unfold Indexes.zpop zpop
    rw [hpick]
    cases hk : pick z with
    | none => rfl
    | some k =>
      have hindexes : (⟨z.scores.erase k.member, z.byScore.erase k⟩ : Indexes) =
          (z.remove k.member).indexes := by
        rw [← withoutKey_of_mem (hmem z k hk)]
        rfl
      have hsame : (⟨z.indexes.scores.erase k.member, z.indexes.byScore.erase k⟩ : Indexes) =
          (z.remove k.member).indexes := hindexes
      simp only [hsame, zpop_indexes hpick hmem n (z.remove k.member)]
      rfl

theorem zpopmin_indexes (z : ZSet) (count : ℕ) :
    z.indexes.zpopmin count = Prod.map id indexes (z.zpopmin count) :=
  zpop_indexes (fun _ => rfl) (fun _ _ h => ExtTreeSet.min?_mem h) count z

theorem zpopmax_indexes (z : ZSet) (count : ℕ) :
    z.indexes.zpopmax count = Prod.map id indexes (z.zpopmax count) :=
  zpop_indexes (fun _ => rfl) (fun _ _ h => ExtTreeSet.max?_mem h) count z

theorem zremrangebyrank_indexes (z : ZSet) (start stop : ℤ) :
    z.indexes.zremrangebyrank start stop = Prod.map id indexes (z.zremrangebyrank start stop) :=
  zrem_indexes _ z

theorem zremrangebyscore_indexes (z : ZSet) (lo hi : ScoreBound) :
    z.indexes.zremrangebyscore lo hi = Prod.map id indexes (z.zremrangebyscore lo hi) := by
  have hremove : (z.byScore.toList.filter fun k =>
      lo.satisfiesLower k.score && hi.satisfiesUpper k.score).map ScoreKey.member =
      (z.inRange lo hi).map Prod.fst := by
    simp only [inRange, allWithScores, List.filter_map, List.map_map]
    rfl
  have hbyScore : z.indexes.byScore = z.byScore := rfl
  simp only [Indexes.zremrangebyscore, zremrangebyscore, hbyScore, hremove, zrem_indexes,
    Prod.map_apply, id_eq, Prod.map_snd]

end ZSet

/-! ## Runs -/

/-- An operation that changes a sorted set. -/
inductive ZOp where
  | zadd (score : F64) (member : Bytes) (nx xx gt lt : Bool)
  | zincrby (delta : F64) (member : Bytes)
  | zrem (members : List Bytes)
  | zpopmin (count : ℕ)
  | zpopmax (count : ℕ)
  | zremrangebyrank (start stop : ℤ)
  | zremrangebyscore (lo hi : ScoreBound)

section

variable (add : F64 → F64 → F64)

/-- The indexes after an operation. -/
def ZOp.apply (t : Indexes) : ZOp → Indexes
  | zadd score member nx xx gt lt => (t.zadd score member nx xx gt lt).2
  | zincrby delta member => (t.zincrby add delta member).2
  | zrem members => (t.zrem members).2
  | zpopmin count => (t.zpopmin count).2
  | zpopmax count => (t.zpopmax count).2
  | zremrangebyrank start stop => (t.zremrangebyrank start stop).2
  | zremrangebyscore lo hi => (t.zremrangebyscore lo hi).2

/-- The indexes after a sequence of operations. -/
def Indexes.run (ops : List ZOp) : Indexes := ops.foldl (ZOp.apply add) Indexes.new

/-- An operation takes the indexes of a sorted set to those of a sorted set. -/
theorem ZOp.apply_indexes (z : ZSet) (op : ZOp) :
    ∃ w : ZSet, op.apply add z.indexes = w.indexes := by
  cases op with
  | zadd score member nx xx gt lt =>
    exact ⟨_, congrArg Prod.snd (z.zadd_indexes score member nx xx gt lt)⟩
  | zincrby delta member => exact ⟨_, z.zincrby_indexes add delta member⟩
  | zrem members => exact ⟨_, congrArg Prod.snd (ZSet.zrem_indexes members z)⟩
  | zpopmin count => exact ⟨_, congrArg Prod.snd (z.zpopmin_indexes count)⟩
  | zpopmax count => exact ⟨_, congrArg Prod.snd (z.zpopmax_indexes count)⟩
  | zremrangebyrank start stop =>
    exact ⟨_, congrArg Prod.snd (z.zremrangebyrank_indexes start stop)⟩
  | zremrangebyscore lo hi => exact ⟨_, congrArg Prod.snd (z.zremrangebyscore_indexes lo hi)⟩

theorem Indexes.foldl_eq : ∀ (ops : List ZOp) (z : ZSet),
    ∃ w : ZSet, ops.foldl (ZOp.apply add) z.indexes = w.indexes
  | [], z => ⟨z, rfl⟩
  | op :: ops, z => by
    obtain ⟨w, hw⟩ := ZOp.apply_indexes add z op
    rw [List.foldl_cons, hw]
    exact foldl_eq ops w

/-- Indexes that start empty are those of a sorted set. -/
theorem Indexes.run_eq (ops : List ZOp) : ∃ z : ZSet, Indexes.run add ops = z.indexes :=
  Indexes.foldl_eq add ops ZSet.new

end

/-! ## What agreement gives -/

namespace ZSet

/-- The tree has exactly the keys of the table. -/
theorem mem_byScore_iff (z : ZSet) (k : ScoreKey) :
    k ∈ z.byScore ↔ ∃ m score, z.scores[m]? = some score ∧ k = ScoreKey.new score m := by
  rw [z.agree, Option.map_eq_some_iff]
  constructor
  · rintro ⟨score, hscore, henc⟩
    exact ⟨k.member, score, hscore, by rw [ScoreKey.new, henc]⟩
  · rintro ⟨m, score, hscore, rfl⟩
    exact ⟨score, hscore, rfl⟩

/-- One key for each member. -/
theorem byScore_perm (z : ZSet) :
    z.byScore.toList.Perm (z.scores.toList.map fun p => ScoreKey.new p.2 p.1) := by
  have hnodup : (z.scores.toList.map fun p => ScoreKey.new p.2 p.1).Nodup := by
    refine List.Nodup.of_map ScoreKey.member ?_
    rw [List.map_map]
    exact FinMap.nodup_keys_toList
  refine (List.perm_ext_iff_of_nodup FinMap.nodup_toList hnodup).mpr fun k => ?_
  rw [ExtTreeSet.mem_toList, mem_byScore_iff, List.mem_map]
  constructor
  · rintro ⟨m, score, hscore, rfl⟩
    exact ⟨(m, score), ExtTreeMap.mem_toList_iff_getElem?_eq_some.mpr hscore, rfl⟩
  · rintro ⟨⟨m, score⟩, hmem, rfl⟩
    exact ⟨m, score, ExtTreeMap.mem_toList_iff_getElem?_eq_some.mp hmem, rfl⟩

theorem len_eq_size_byScore (z : ZSet) : z.len = z.byScore.size := by
  have hlength := z.byScore_perm.length_eq
  rw [List.length_map, ExtTreeSet.length_toList, ExtTreeMap.length_toList] at hlength
  exact hlength.symm

/-- The key of a member is among those that its rank counts. -/
theorem countUpTo_pos {z : ZSet} {member : Bytes} {score : F64}
    (h : z.scores[member]? = some score) :
    0 < z.indexes.countUpTo (ScoreKey.new score member) := by
  refine List.length_pos_of_mem (a := ScoreKey.new score member) (List.mem_filter.mpr ⟨?_, ?_⟩)
  · exact ExtTreeSet.mem_toList.mpr ((z.mem_byScore_iff _).mpr ⟨member, score, h, rfl⟩)
  · have hself : ScoreKey.cmp (ScoreKey.new score member) (ScoreKey.new score member) = .eq :=
      ReflCmp.compare_self
    rw [hself]
    rfl

/-- The subtraction in `zrank` does not go below 0. -/
theorem countUpTo_eq_zrank {z : ZSet} {member : Bytes} {score : F64}
    (h : z.scores[member]? = some score) :
    ∃ r, z.indexes.zrank member = some r ∧
      z.indexes.countUpTo (ScoreKey.new score member) = r + 1 := by
  refine ⟨z.indexes.countUpTo (ScoreKey.new score member) - 1, ?_, ?_⟩
  · have hscore : z.indexes.scores[member]? = some score := h
    rw [Indexes.zrank, hscore]
    rfl
  · have hpos := countUpTo_pos h
    omega

theorem mem_allWithScores_iff (z : ZSet) (member : Bytes) (score : F64) :
    (member, score) ∈ z.allWithScores ↔ z.zscore member = some score := by
  rw [allWithScores, List.mem_map, zscore]
  constructor
  · rintro ⟨k, hk, hpair⟩
    obtain ⟨m, s, hs, rfl⟩ := (z.mem_byScore_iff k).mp (ExtTreeSet.mem_toList.mp hk)
    simp only [ScoreKey.new, ScoreKey.score, decodeScore_encodeScore, Prod.mk.injEq] at hpair
    rw [← hpair.1, ← hpair.2, hs]
  · intro hscore
    refine ⟨ScoreKey.new score member, ?_, ?_⟩
    · exact ExtTreeSet.mem_toList.mpr ((z.mem_byScore_iff _).mpr ⟨member, score, hscore, rfl⟩)
    · simp [ScoreKey.new, ScoreKey.score, decodeScore_encodeScore]

end ZSet

/-- After any operations, with any scores and members : the tree has exactly the keys that
the table gives, one for each member, so the table and the tree have the same size, `zrank`
is one less than a count without going below 0, and the score listed with a member is the
score of the member, bit for bit. -/
theorem Indexes.indexes_agree (add : F64 → F64 → F64) (ops : List ZOp) :
    let t := Indexes.run add ops
    (∀ k, k ∈ t.byScore ↔ ∃ m score, t.scores[m]? = some score ∧ k = ScoreKey.new score m) ∧
    t.byScore.toList.Perm (t.scores.toList.map fun p => ScoreKey.new p.2 p.1) ∧
    t.len = t.byScore.size ∧
    (∀ m score, t.scores[m]? = some score →
      ∃ r, t.zrank m = some r ∧ t.countUpTo (ScoreKey.new score m) = r + 1) ∧
    (∀ m score, (m, score) ∈ t.allWithScores ↔ t.zscore m = some score) := by
  obtain ⟨z, hz⟩ := Indexes.run_eq add ops
  rw [hz]
  exact ⟨z.mem_byScore_iff, z.byScore_perm, z.len_eq_size_byScore,
    fun _ _ => ZSet.countUpTo_eq_zrank, z.mem_allWithScores_iff⟩

end LoonyRedis
