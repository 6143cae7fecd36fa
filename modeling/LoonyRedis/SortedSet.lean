import LoonyRedis.Lib.FinMap
import LoonyRedis.Lib.Float64
import LoonyRedis.Lib.Text
import LoonyRedis.Lib.Utf8
import Mathlib.Data.List.Basic

/-!
# Sorted sets

A sorted set keeps the score of each member twice : in a table from members to scores,
and in an ordered set of keys (encoded score, member) for rank and range queries.
`encodeScore` reinterprets the bits of a double as an unsigned integer with the order of
the doubles.

`ZSet` carries that the two indexes agree, so that its operations need to be given on the
pair only in three places : `empty`, `put` and `remove`.
-/

namespace LoonyRedis

open Std

/-! ## Score ordering -/

/-- The bits of a double with the order of the doubles : the sign bit of a positive one is set,
and all bits of a negative one are flipped. -/
def encodeScore (score : F64) : UInt64 :=
  if score.bits >>> 63 = 0 then score.bits ||| ((1 : UInt64) <<< 63) else ~~~score.bits

/-- The double of an encoded score. -/
def decodeScore (encoded : UInt64) : F64 :=
  ⟨if encoded >>> 63 ≠ 0 then encoded ^^^ ((1 : UInt64) <<< 63) else ~~~encoded⟩

theorem shiftRight_eq_zero_iff (b : UInt64) : b >>> 63 = 0 ↔ b.toBitVec.getLsbD 63 = false := by
  rw [← UInt64.toNat_inj, UInt64.toNat_shiftRight, BitVec.getLsbD]
  have hb := b.toNat_lt
  simp only [UInt64.toNat_toBitVec, Nat.testBit_eq_decide_div_mod_eq, Nat.shiftRight_eq_div_pow]
  simp
  omega

theorem toBitVec_top : ((1 : UInt64) <<< 63).toBitVec = BitVec.twoPow 64 63 := by decide

/-- The encoding loses nothing. -/
theorem decodeScore_encodeScore (x : F64) : decodeScore (encodeScore x) = x := by
  obtain ⟨b⟩ := x
  unfold encodeScore decodeScore
  congr 1
  by_cases hb : b >>> 63 = 0
  · have hbit := (shiftRight_eq_zero_iff b).mp hb
    have htop : (b ||| (1 : UInt64) <<< 63) >>> 63 ≠ 0 := by
      rw [ne_eq, shiftRight_eq_zero_iff, UInt64.toBitVec_or, toBitVec_top]
      simp
    rw [if_pos hb, if_pos htop, ← UInt64.toBitVec_inj, UInt64.toBitVec_xor, UInt64.toBitVec_or,
      toBitVec_top]
    refine BitVec.eq_of_getLsbD_eq fun i hi => ?_
    by_cases h63 : i = 63
    · subst h63
      simpa using hbit
    · simp [Ne.symm h63]
  · have hbit : b.toBitVec.getLsbD 63 = true := by
      simpa [shiftRight_eq_zero_iff] using hb
    have htop : ¬ (~~~b) >>> 63 ≠ 0 := by
      rw [not_not, shiftRight_eq_zero_iff, UInt64.toBitVec_not]
      simp [hbit]
    rw [if_neg hb, if_neg htop]
    simp

/-- The key of a member in the ordered index. -/
structure ScoreKey where
  encoded : UInt64
  member : Bytes
  deriving DecidableEq

namespace ScoreKey

/-- The key of a member with its score. -/
def new (score : F64) (member : Bytes) : ScoreKey := ⟨encodeScore score, member⟩

/-- The score in the key. -/
def score (k : ScoreKey) : F64 := decodeScore k.encoded

/-- By encoded score, then by member. -/
def cmp : ScoreKey → ScoreKey → Ordering :=
  compareLex (compareOn ScoreKey.encoded) (compareOn ScoreKey.member)

/-- Keys are compared in lexicographic order. -/
instance : TransCmp cmp := inferInstanceAs (TransCmp (compareLex _ _))

/-- Keys that compare equal are the same. -/
instance : LawfulEqCmp cmp where
  eq_of_compare {a b} h := by
    simp only [cmp, compareLex_eq_eq, compareOn, LawfulEqCmp.compare_eq_iff_eq] at h
    cases a
    cases b
    simpa using h

end ScoreKey

/-! ## Score range bounds -/

/-- An end of a range of scores. -/
inductive ScoreBound where
  | negInf
  | posInf
  | inclusive (x : F64)
  | exclusive (x : F64)

namespace ScoreBound

/-- Read the min or max of a range by score. -/
def parse (s : String) : Option ScoreBound :=
  if s = "-inf" then some negInf
  else if s = "+inf" ∨ s = "inf" then some posInf
  else match s.toList with
    | '(' :: cs => (F64.parse (String.ofList cs)).map exclusive
    | _ => (F64.parse s).map inclusive

/-- Whether a score is above a lower bound. As a lower bound, `+inf` admits the infinite
score. -/
def satisfiesLower (b : ScoreBound) (score : F64) : Bool :=
  match b with
  | negInf => true
  | posInf => score.eq F64.infinity
  | inclusive lo => lo.le score
  | exclusive lo => lo.lt score

/-- Whether a score is below an upper bound. As an upper bound, `-inf` admits the infinite
score. -/
def satisfiesUpper (b : ScoreBound) (score : F64) : Bool :=
  match b with
  | posInf => true
  | negInf => score.eq F64.negInfinity
  | inclusive hi => score.le hi
  | exclusive hi => score.lt hi

end ScoreBound

/-! ## The two indexes -/

/-- A sorted set : the scores by member, and the keys in order. -/
structure ZSet where
  scores : ExtTreeMap Bytes F64 compare
  byScore : ExtTreeSet ScoreKey ScoreKey.cmp
  agree : ∀ k, k ∈ byScore ↔ (scores[k.member]?).map encodeScore = some k.encoded

namespace ZSet

/-- The scores determine the set. -/
theorem ext_scores {z w : ZSet} (h : z.scores = w.scores) : z = w := by
  obtain ⟨zs, zb, hz⟩ := z
  obtain ⟨ws, wb, hw⟩ := w
  obtain rfl : zs = ws := h
  obtain rfl : zb = wb := ExtTreeSet.ext_mem fun k => (hz k).trans (hw k).symm
  rfl

/-- The set without members. -/
def new : ZSet where
  scores := ∅
  byScore := ∅
  agree k := by simp

/-- The number of members. -/
def len (z : ZSet) : ℕ := z.scores.size

/-- Whether there is no member. -/
def isEmpty (z : ZSet) : Bool := z.scores.isEmpty

/-- The ordered index without the key of `member`, if it has one. -/
def withoutKey (z : ZSet) (member : Bytes) : ExtTreeSet ScoreKey ScoreKey.cmp :=
  match z.scores[member]? with
  | some old => z.byScore.erase (ScoreKey.new old member)
  | none => z.byScore

theorem mem_withoutKey (z : ZSet) (member : Bytes) (k : ScoreKey) :
    k ∈ z.withoutKey member ↔ k.member ≠ member ∧ k ∈ z.byScore := by
  obtain ⟨e, m⟩ := k
  unfold withoutKey
  split
  · next old hold =>
    rw [FinMap.mem_erase, and_congr_left_iff]
    intro hk
    have hk' := (z.agree _).mp hk
    simp only [ScoreKey.new, ne_eq, ScoreKey.mk.injEq, not_and]
    constructor
    · rintro h rfl
      refine h ?_ rfl
      simpa [hold] using hk'
    · intro h _ hm
      exact h hm.symm
  · next hnone =>
    simp only [ne_eq, iff_and_self]
    rintro hk rfl
    simpa [hnone] using (z.agree _).mp hk

/-- Give `member` the score `score`. -/
def put (z : ZSet) (member : Bytes) (score : F64) : ZSet where
  scores := z.scores.insert member score
  byScore := (z.withoutKey member).insert (ScoreKey.new score member)
  agree k := by
    obtain ⟨e, m⟩ := k
    rw [FinMap.mem_insert, mem_withoutKey, z.agree, FinMap.getElem?_insert]
    simp only [ScoreKey.new, ScoreKey.mk.injEq]
    by_cases hm : member = m
    · simp [hm]
    · simp [hm, Ne.symm hm]

/-- Remove `member` from both indexes. -/
def remove (z : ZSet) (member : Bytes) : ZSet where
  scores := z.scores.erase member
  byScore := z.withoutKey member
  agree k := by
    rw [mem_withoutKey, z.agree, FinMap.getElem?_erase]
    by_cases hm : member = k.member
    · simp [hm]
    · simp [hm, Ne.symm hm]

/-! ## Commands on a sorted set -/

/-- Add or update a member : `nx` only adds, `xx` only updates, `gt` and `lt` update only
to a greater or a smaller score. The numbers of added and of changed members. -/
def zadd (z : ZSet) (score : F64) (member : Bytes) (nx xx gt lt : Bool) : (ℕ × ℕ) × ZSet :=
  if score.isNaN then ((0, 0), z)
  else match z.scores[member]? with
    | some old =>
      if nx then ((0, 0), z)
      else
        let newScore :=
          if gt then if old.lt score then score else old
          else if lt then if score.lt old then score else old
          else score
        if (newScore.sub old).abs.lt (F64.epsilon.mul (old.abs.max F64.one)) && newScore.eq old then
          ((0, 0), z)
        else ((0, 1), z.put member newScore)
    | none => if xx then ((0, 0), z) else ((1, 1), z.put member score)

/-- The score of a member. -/
def zscore (z : ZSet) (member : Bytes) : Option F64 := z.scores[member]?

/-- The number of members before this one in the ordered index. -/
def zrank (z : ZSet) (member : Bytes) : Option ℕ :=
  (z.scores[member]?).map fun score =>
    (z.byScore.toList.filter fun k => (ScoreKey.cmp k (ScoreKey.new score member)).isLE).length - 1

/-- The number of members after this one in the ordered index. -/
def zrevrank (z : ZSet) (member : Bytes) : Option ℕ :=
  (z.zrank member).map fun rank => z.len - 1 - rank

/-- Add `delta` to the score of a member, which starts at 0. The sum is stored unchecked, a NaN
too. -/
def zincrby (z : ZSet) (delta : F64) (member : Bytes) : F64 × ZSet :=
  let newScore := (z.scores[member]?.getD F64.zero).add delta
  (newScore, z.put member newScore)

/-- Remove members; the number of those that were there. -/
def zrem (z : ZSet) : List Bytes → ℕ × ZSet
  | [] => (0, z)
  | m :: ms =>
    ((if z.scores.contains m then 1 else 0) + ((z.remove m).zrem ms).1, ((z.remove m).zrem ms).2)

/-- The members with their scores, in order. -/
def allWithScores (z : ZSet) : List (Bytes × F64) :=
  z.byScore.toList.map fun k => (k.member, k.score)

/-- The members with ranks from `start` to `stop`. With `rev`, this window of the ascending
order is reversed. -/
def zrangeByRank (z : ZSet) (start stop : ℤ) (rev : Bool) : List (Bytes × F64) :=
  let (s, e) := Text.window z.len start stop
  if e ≤ s then []
  else
    let items := (z.allWithScores.drop s).take (e - s)
    if rev then items.reverse else items

/-- The members with a score in the range, in order. -/
def inRange (z : ZSet) (lo hi : ScoreBound) : List (Bytes × F64) :=
  z.allWithScores.filter fun p => lo.satisfiesLower p.2 && hi.satisfiesUpper p.2

/-- The members with a score in the range, in order or reversed, from the `offset`th on and at
most `limit` of them. -/
def zrangebyscore (z : ZSet) (lo hi : ScoreBound) (offset : ℕ) (limit : Option ℕ) (rev : Bool) :
    List (Bytes × F64) :=
  let items := z.inRange lo hi
  let items := (if rev then items.reverse else items).drop offset
  match limit with
  | some n => items.take n
  | none => items

/-- The number of members with a score in the range. -/
def zcount (z : ZSet) (lo hi : ScoreBound) : ℕ := (z.inRange lo hi).length

/-- Pop the key that `pick` gives until `n` are out or none is left. The popped key is the
one its member has, since the indexes agree. -/
def zpop (pick : ZSet → Option ScoreKey) : ℕ → ZSet → List (Bytes × F64) × ZSet
  | 0, z => ([], z)
  | n + 1, z =>
    match pick z with
    | some k =>
      ((k.member, k.score) :: (zpop pick n (z.remove k.member)).1,
        (zpop pick n (z.remove k.member)).2)
    | none => ([], z)

/-- Pop up to `count` members from the low end. -/
def zpopmin (z : ZSet) (count : ℕ) : List (Bytes × F64) × ZSet :=
  zpop (fun z => z.byScore.min?) count z

/-- Pop up to `count` members from the high end. -/
def zpopmax (z : ZSet) (count : ℕ) : List (Bytes × F64) × ZSet :=
  zpop (fun z => z.byScore.max?) count z

/-- Remove the members with ranks from `start` to `stop`; how many were removed. -/
def zremrangebyrank (z : ZSet) (start stop : ℤ) : ℕ × ZSet :=
  z.zrem ((z.zrangeByRank start stop false).map Prod.fst)

/-- Remove the members with a score in the range; how many there were. -/
def zremrangebyscore (z : ZSet) (lo hi : ScoreBound) : ℕ × ZSet :=
  let toRemove := (z.inRange lo hi).map Prod.fst
  (toRemove.length, (z.zrem toRemove).2)

end ZSet

end LoonyRedis
