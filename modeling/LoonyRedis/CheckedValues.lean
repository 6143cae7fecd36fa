import LoonyRedis.AofCoverage
import LoonyRedis.Lib.Checked
import LoonyRedis.ListEncodings
import LoonyRedis.SortedSetOrder

/-!
# Where the methods of the values panic

The ends of a window and the counts that a client sends are not checked. In a build with overflow
checks the arithmetic on them may panic, and in any build an allocation for more elements than
there can be. Here the methods of lists, hashes, sets and sorted sets have each of these
operations checked, and for each of them it is said when it returns; it then returns what the
unchecked method does. The code for the two encodings of a list is in `ListCode`, and what it
indexes is always there.
-/

namespace LoonyRedis

open Checked Std

/-! ## Memory and time -/

/-- The sizes in memory of three types of the source : `Bytes`, a pair of `Bytes` and `f64`, and
`Frame`. -/
structure Sizes where
  bytes : ℕ
  scored : ℕ
  frame : ℕ
  bytes_pos : 0 < bytes
  frame_pos : 0 < frame

/-- The number of elements, or of bytes. -/
def Value.size : Value → ℕ
  | .string b => b.length
  | .list l => l.len
  | .hash h => h.len
  | .set t => t.len
  | .zset z => z.len

/-- What is in memory leaves room for a reply that has two frames for each element. -/
def Store.Fits (S : Sizes) (s : Store) : Prop :=
  ∀ (k : String) (e : Entry), s[k]? = some e → 2 * e.value.size * S.frame < 2 ^ 63

/-- The seconds of an `Instant` are signed numbers of 64 bits. -/
def instantEnd : ℕ := 2 ^ 63 * Store.nanosPerSec

/-- `Instant::now() + ttl`. -/
def instantAdd (now ttl : ℕ) : Option ℕ := if now + ttl < instantEnd then some (now + ttl) else none

/-- Adding to an instant panics at the end of time only. -/
theorem returns_instantAdd (now ttl : ℕ) :
    Returns (instantAdd now ttl) (now + ttl < instantEnd) (now + ttl) := returns_if

/-- A number of the range of `i64`. -/
def IsI64 (x : ℤ) : Prop := Text.i64Min ≤ x ∧ x ≤ Text.i64Max

/-! ## Windows -/

/-- `start` or `stop`, counted from the end if it is negative. -/
def fromEnd (len x : ℤ) : Option ℤ := if x < 0 then i64 (len + x) else some x

/-- The window of `LRANGE` and of `ZRANGE`. -/
def windowChecked (len start stop : ℤ) : Option (ℕ × ℕ) := do
  let s ← fromEnd len start
  let e ← if stop < 0 then (do i64 ((← i64 (len + stop)) + 1)) else i64 (stop + 1)
  return (Text.asUsize (max s 0), Text.asUsize (max (min e len) 0))

section Window

variable {len start stop : ℤ}

/-- Counting from the end does not overflow. -/
theorem fromEnd_eq {x : ℤ} (hlen : 0 ≤ len) (hlen' : len < 2 ^ 63) (hx : IsI64 x) :
    fromEnd len x = some (if x < 0 then (Text.wrap (len + x)).1 else x) := by
  obtain ⟨hlo, hhi⟩ := hx
  simp only [Text.i64Min, Text.i64Max] at hlo hhi
  unfold fromEnd
  split
  · have hfits : Text.i64Min ≤ len + x ∧ len + x ≤ Text.i64Max := by
      simp only [Text.i64Min, Text.i64Max]
      omega
    rw [i64_eq (by omega) (by omega), Text.wrap_of_fits hfits]
  · rfl

/-- A window panics for the largest stop only. -/
theorem returns_windowChecked (hlen : 0 ≤ len) (hlen' : len < 2 ^ 63) (hstart : IsI64 start)
    (hstop : IsI64 stop) : Returns (windowChecked len start stop) (stop ≠ Text.i64Max)
      (Text.window len start stop) := by
  refine .bind_eq (fromEnd_eq hlen hlen' hstart) ?_
  obtain ⟨hlo, hhi⟩ := hstop
  simp only [Text.i64Min, Text.i64Max] at hlo hhi ⊢
  have hwrap {x : ℤ} (h : -2 ^ 63 ≤ x) (h' : x < 2 ^ 63) : (Text.wrap x).1 = x := by
    refine Text.wrap_of_fits ⟨h, ?_⟩
    rw [Text.i64Max]
    omega
  rw [Text.window]
  by_cases hneg : stop < 0
  · have hsum : i64 (len + stop) = some (len + stop) := i64_eq (by omega) (by omega)
    have hnext : i64 (len + stop + 1) = some (len + stop + 1) := i64_eq (by omega) (by omega)
    rw [if_pos hneg, if_pos hneg, hsum, hwrap (x := len + stop) (by omega) (by omega),
      hwrap (x := len + stop + 1) (by omega) (by omega)]
    refine .congr (.bind_eq hnext (.of_eq rfl)) ?_
    simp only [true_iff]
    omega
  · rw [if_neg hneg, if_neg hneg]
    by_cases hmax : stop = 2 ^ 63 - 1
    · refine ⟨fun h => absurd hmax h, fun _ => ?_⟩
      have hnone : i64 (stop + 1) = none := if_neg (by omega)
      rw [hnone]
      rfl
    · rw [hwrap (x := stop + 1) (by omega) (by omega)]
      refine .congr (.bind_eq (i64_eq (by omega) (by omega)) (.of_eq rfl)) ?_
      exact (iff_true_intro hmax).symm

end Window

/-! ## Lists -/

namespace RedisList

/-- `pop_front_n` and `pop_back_n` ask for room for `n` elements before they look for them. -/
def popNChecked (S : Sizes) (pop : RedisList → ℕ → List Bytes × RedisList) (l : RedisList)
    (n : ℕ) : Option (List Bytes × RedisList) := do
  room S.bytes n
  return pop l n

/-- `LRANGE`, with the window and the slice checked. -/
def lrangeChecked (l : RedisList) (start stop : ℤ) : Option (List Bytes) := do
  let (s, e) ← windowChecked l.len start stop
  ListCode.range l s e

/-- The position of `index`, for `lindex` and `lset`. -/
def listIndexChecked (l : RedisList) (index : ℤ) : Option (Option ℕ) := do
  let idx ← fromEnd l.len index
  return if idx < 0 ∨ (l.len : ℤ) ≤ idx then none else some idx.toNat

/-- `LREM`, with the negated count checked. -/
def lremChecked (l : RedisList) (count : ℤ) (val : Bytes) : Option (ℕ × RedisList) := do
  let _ ← if count < 0 then i64 (-count) else some count
  return ListCode.lrem l count val

/-- `LTRIM`, with its sums and the slice checked. -/
def ltrimChecked (l : RedisList) (start stop : ℤ) : Option RedisList := do
  let len : ℤ := l.len
  let s := Text.asUsize (max (← fromEnd len start) 0)
  let e := Text.asUsize (max (min (← fromEnd len stop) (← i64 (len - 1))) (-1))
  if e < s ∨ len = 0 then return .small []
  else
    let past ← unsigned 64 (e + 1)
    return .small (← ListCode.range l s past)

variable {l : RedisList} {start stop : ℤ}

/-- Popping panics only where there is no room for that many. -/
theorem returns_popNChecked (S : Sizes) (pop : RedisList → ℕ → List Bytes × RedisList) (n : ℕ) :
    Returns (popNChecked S pop l n) (n * S.bytes < 2 ^ 63) (pop l n) := by
  refine .congr ?_ (and_iff_left trivial)
  exact (returns_room S.bytes n).bind fun _ => .of_eq rfl

/-- `LRANGE` panics for the largest stop only. -/
theorem returns_lrangeChecked (hlen : l.len < 2 ^ 63) (hstart : IsI64 start)
    (hstop : IsI64 stop) : Returns (l.lrangeChecked start stop) (stop ≠ Text.i64Max)
      (l.range (Text.window l.len start stop).1 (Text.window l.len start stop).2) := by
  refine ((returns_windowChecked (by omega) (by omega) hstart hstop).bind fun _ => ?_).congr
    (and_iff_left trivial)
  exact .of_eq (ListCode.range_eq _ _)

/-- `LINDEX` never panics. -/
theorem listIndexChecked_eq (hlen : l.len < 2 ^ 63) {index : ℤ} (hindex : IsI64 index) :
    l.listIndexChecked index = some (Store.listIndex l index) := by
  rw [listIndexChecked, fromEnd_eq (by omega) (by omega) hindex]
  rfl

/-- `LREM` panics for the least count only. -/
theorem returns_lremChecked (count : Text.I64) (val : Bytes) :
    Returns (l.lremChecked count val) (count.1 ≠ Text.i64Min) (l.lrem count val) := by
  obtain ⟨c, hlo, hhi⟩ := count
  simp only [Text.i64Min, Text.i64Max] at hlo hhi ⊢
  unfold lremChecked
  rw [ListCode.lrem_eq]
  by_cases hneg : c < 0
  · rw [if_pos hneg]
    refine .congr ((returns_i64 (-c)).bind fun _ => .of_eq rfl) ?_
    rw [and_true]
    omega
  · rw [if_neg hneg]
    refine .congr (.bind_eq rfl (.of_eq rfl)) ?_
    simp only [true_iff]
    omega

/-- With elements in the list, the end of the window must not be before the first of them. -/
theorem returns_ltrimChecked (hlen : l.len < 2 ^ 63) (hstart : IsI64 start)
    (hstop : IsI64 stop) :
    Returns (l.ltrimChecked start stop) (l.len = 0 ∨ -(l.len : ℤ) ≤ stop)
      (l.ltrim start stop) := by
  have hcast : (0 : ℤ) ≤ l.len := by omega
  refine .bind_eq (fromEnd_eq hcast (by omega) hstart) ?_
  refine .bind_eq (fromEnd_eq hcast (by omega) hstop) ?_
  refine .bind_eq (i64_eq (x := (l.len : ℤ) - 1) (by omega) (by omega)) ?_
  obtain ⟨hlo, hhi⟩ := hstart
  obtain ⟨hlo', hhi'⟩ := hstop
  have hstop : (if stop < 0 then (Text.wrap (l.len + stop)).1 else stop) =
      if stop < 0 then l.len + stop else stop := by
    split
    · refine Text.wrap_of_fits ?_
      simp only [Text.i64Min, Text.i64Max] at *
      omega
    · rfl
  have hs : Text.asUsize (max (if start < 0 then (Text.wrap (l.len + start)).1 else start) 0) <
      2 ^ 63 := by
    have hwrap := (Text.wrap (l.len + start)).2
    simp only [Text.asUsize, Text.i64Min, Text.i64Max] at *
    split <;> omega
  simp only [ltrim, hstop]
  generalize Text.asUsize (max (if start < 0 then (Text.wrap (l.len + start)).1 else start) 0) = i
    at hs ⊢
  simp only [Text.i64Min, Text.i64Max] at hlo hhi hlo' hhi'
  by_cases hzero : l.len = 0
  · simp only [hzero, Nat.cast_zero, or_true, if_true]
    exact (Returns.of_eq rfl).congr (by simp)
  · simp only [Nat.cast_eq_zero, hzero, or_false, false_or]
    have hlast : (max (min (if stop < 0 then (l.len : ℤ) + stop else stop) (l.len - 1)) (-1)) =
        if -(l.len : ℤ) ≤ stop then min (if stop < 0 then (l.len : ℤ) + stop else stop) (l.len - 1)
        else -1 := by
      split <;> split <;> omega
    rw [hlast]
    by_cases hbefore : -(l.len : ℤ) ≤ stop
    · -- The last position is inside the list, and the one after it no overflow.
      have he : Text.asUsize (min (if stop < 0 then (l.len : ℤ) + stop else stop) (l.len - 1)) <
          2 ^ 63 := by
        rw [Text.asUsize]
        split <;> omega
      simp only [hbefore, if_true]
      generalize Text.asUsize (min (if stop < 0 then (l.len : ℤ) + stop else stop) (l.len - 1)) = j
        at he ⊢
      refine .of_eq ?_
      split
      · rfl
      · have hpast : unsigned 64 ((j : ℤ) + 1) = some (j + 1) := unsigned_eq (by omega) (by omega)
        have hwrap : Text.addUsize j 1 = j + 1 := Nat.mod_eq_of_lt (by omega)
        rw [hpast, hwrap]
        simp [ListCode.range_eq]
    · -- The last position wraps to the greatest number.
      refine ⟨fun h => absurd h hbefore, fun _ => ?_⟩
      have he : Text.asUsize (-1) = 2 ^ 64 - 1 := rfl
      have hpast : unsigned 64 (((2 ^ 64 - 1 : ℕ) : ℤ) + 1) = none := if_neg (by omega)
      rw [if_neg hbefore, he, if_neg (by omega), hpast]
      rfl

end RedisList

/-! ## Hashes and sets -/

/-- `before - v.len()` after `retain`, for `HDEL` and `SREM`. -/
def lostChecked {α : Type} (before after : List α) : Option ℕ :=
  unsigned 64 ((before.length : ℤ) - after.length)

/-- `HDEL`, with the difference of the lengths checked. -/
def RedisHash.hdelChecked (h : RedisHash) (fields : List Bytes) : Option (ℕ × RedisHash) :=
  match h with
  | .small v =>
    let kept := v.retain fun f => !fields.contains f
    (lostChecked v.1 kept.1).map fun n => (n, .small kept)
  | .large _ => some (h.hdel fields)

namespace RedisSet

/-- `SREM`, with the difference of the lengths checked. -/
def sremChecked (t : RedisSet) (members : List Bytes) : Option (ℕ × RedisSet) :=
  match t with
  | .small v =>
    let kept := v.retain fun m => !members.contains m
    (lostChecked v.1 kept.1).map fun n => (n, .small kept)
  | .large _ => some (t.srem members)

/-- `members.choose(..).unwrap()` for each index below `n`, once there is room for them. -/
def drawChecked (S : Sizes) (env : Env) (members : List Bytes) (n : ℕ) : Option (List Bytes) := do
  room S.bytes n
  (List.range n).mapM fun i => members[env.draw i members.length]?

/-- `SRANDMEMBER`, with the negated count and the capacity checked. -/
def randomMembersChecked (S : Sizes) (env : Env) (t : RedisSet) (count : ℤ) :
    Option (List Bytes) := do
  let members := t.members env
  if members = [] then return []
  else if 0 ≤ count then
    return (env.shuffle members).take (min (Text.asUsize count) members.length)
  else drawChecked S env members (Text.asUsize (← i64 (-count)))

/-- `SPOP`, with the slice of the shuffled members checked. -/
def spopChecked (env : Env) (t : RedisSet) (count : ℕ) : Option (List Bytes × RedisSet) := do
  let members := t.members env
  if members = [] then return ([], t)
  else
    let popped ← sliceTo (env.shuffle members) (min count members.length)
    return (popped, t.removeEach popped)

end RedisSet

section HashesAndSets

/-- Counting what was taken out does not underflow. -/
theorem lostChecked_eq {α : Type} {before after : List α} (hsub : after.length ≤ before.length)
    (hfits : before.length < 2 ^ 63) :
    lostChecked before after = some (before.length - after.length) := by
  rw [lostChecked, unsigned_eq (by omega) (by omega)]
  congr 1
  omega

/-- `HDEL` never panics. -/
theorem RedisHash.hdelChecked_eq {h : RedisHash} (hfits : h.len < 2 ^ 63) (fields : List Bytes) :
    h.hdelChecked fields = some (h.hdel fields) := by
  cases h with
  | small v =>
    have hsub : (v.retain fun f => !fields.contains f).1.length ≤ v.1.length :=
      List.length_filter_le _ _
    rw [hdelChecked, lostChecked_eq hsub hfits]
    rfl
  | large m => rfl

namespace RedisSet

variable {t : RedisSet} {env : Env}

/-- `SREM` never panics. -/
theorem sremChecked_eq (hfits : t.len < 2 ^ 63) (members : List Bytes) :
    t.sremChecked members = some (t.srem members) := by
  cases t with
  | small v =>
    have hsub : (v.retain fun m => !members.contains m).1.length ≤ v.1.length :=
      List.length_filter_le _ _
    rw [sremChecked, lostChecked_eq hsub hfits]
    rfl
  | large m => rfl

/-- `SPOP` never panics. -/
theorem spopChecked_eq (count : ℕ) : t.spopChecked env count = some (t.spop env count) := by
  have hle : min count (t.members env).length ≤ (env.shuffle (t.members env)).length := by
    rw [(env.shuffle_perm _).length_eq]
    exact Nat.min_le_right _ _
  simp only [spopChecked, spop]
  split
  · rfl
  · rw [sliceTo_eq hle]
    rfl

/-- Drawing members panics only where there is no room for that many. -/
theorem returns_drawChecked {S : Sizes} {members : List Bytes} (hne : members ≠ []) (n : ℕ) :
    Returns (drawChecked S env members n) (n * S.bytes < 2 ^ 63)
      ((List.range n).map fun i => members.getD (env.draw i members.length) []) := by
  refine .congr ((returns_room S.bytes n).bind fun _ => .of_eq ?_) (and_iff_left trivial)
  have hdraw (i : ℕ) : members[env.draw i members.length]? =
      some (members.getD (env.draw i members.length) []) := by
    have hlt := env.draw_lt i members.length (List.length_pos_iff.mpr hne)
    rw [List.getD_eq_getElem?_getD, List.getElem?_eq_getElem hlt, Option.getD_some]
  simp only [hdraw]
  exact List.mapM_pure

/-- Without members nothing is drawn. -/
theorem returns_randomMembersChecked (S : Sizes) {count : ℤ} (hcount : IsI64 count) :
    Returns (t.randomMembersChecked S env count)
      (t.len = 0 ∨ 0 ≤ count ∨ count.natAbs * S.bytes < 2 ^ 63) (t.randomMembers env count) := by
  simp only [randomMembersChecked, randomMembers, members_eq_nil]
  split
  · next h => exact (Returns.of_eq rfl).congr (by simp [h])
  · next h =>
    have hne : t.members env ≠ [] := fun hnil => h (members_eq_nil.mp hnil)
    split
    · next hpos => exact (Returns.of_eq rfl).congr (by simp [hpos])
    · next hneg =>
      rw [or_iff_right h, or_iff_right hneg]
      obtain ⟨hlo, hhi⟩ := hcount
      by_cases hmin : count = Text.i64Min
      · -- The least number has no opposite, and there is no room for as many members either.
        rw [Text.i64Min] at hmin
        refine ⟨fun hroom => ?_, fun _ => ?_⟩
        · have hle := Nat.le_mul_of_pos_right count.natAbs S.bytes_pos
          omega
        · have hnone : i64 (-count) = none := if_neg (by omega)
          rw [hnone]
          rfl
      · rw [Text.i64Min] at hlo hmin
        have husize : Text.asUsize (-count) = count.natAbs := by
          rw [Text.asUsize_of_nonneg (by omega) (by rw [Text.i64Max]; omega), Int.natAbs_neg]
        have hwrap : (Text.wrap (-count)).1 = -count :=
          Text.wrap_of_fits (by rw [Text.i64Min, Text.i64Max]; omega)
        rw [hwrap, husize]
        refine .bind_eq (i64_eq (by omega) (by omega)) ?_
        rw [husize]
        exact returns_drawChecked hne _

end RedisSet

end HashesAndSets

/-! ## Sorted sets -/

namespace ZSet

/-- `self.by_score.range(..=key).count() - 1`. -/
def zrankChecked (z : ZSet) (member : Bytes) : Option (Option ℕ) :=
  match z.scores[member]? with
  | none => some none
  | some score => do
    let upTo := z.byScore.toList.filter fun k => (ScoreKey.cmp k (ScoreKey.new score member)).isLE
    return some (← unsigned 64 ((upTo.length : ℤ) - 1))

/-- `self.len() - 1 - rank`. -/
def zrevrankChecked (z : ZSet) (member : Bytes) : Option (Option ℕ) := do
  match ← z.zrankChecked member with
  | none => return none
  | some rank =>
    let last ← unsigned 64 ((z.len : ℤ) - 1)
    return some (← unsigned 64 ((last : ℤ) - rank))

/-- `ZRANGE`, with the window and the length of the result checked. -/
def zrangeByRankChecked (z : ZSet) (start stop : ℤ) (rev : Bool) :
    Option (List (Bytes × F64)) := do
  let (s, e) ← windowChecked z.len start stop
  if e ≤ s then return []
  else
    let items := (z.allWithScores.drop s).take (← unsigned 64 ((e : ℤ) - s))
    return if rev then items.reverse else items

/-- `zpopmin` and `zpopmax` ask for room for `n` pairs before they look for them. -/
def zpopChecked (S : Sizes) (pop : ZSet → ℕ → List (Bytes × F64) × ZSet) (z : ZSet) (n : ℕ) :
    Option (List (Bytes × F64) × ZSet) := do
  room S.scored n
  return pop z n

/-- `ZREMRANGEBYRANK`, with the window checked. -/
def zremrangebyrankChecked (z : ZSet) (start stop : ℤ) : Option (ℕ × ZSet) := do
  let toRemove ← z.zrangeByRankChecked start stop false
  return z.zrem (toRemove.map Prod.fst)

variable {z : ZSet} {start stop : ℤ}

/-- The key of a member is among the keys up to it. -/
theorem length_upTo {member : Bytes} {score : F64} (hscore : z.scores[member]? = some score) :
    0 < (z.byScore.toList.filter fun k =>
        (ScoreKey.cmp k (ScoreKey.new score member)).isLE).length ∧
      (z.byScore.toList.filter fun k =>
        (ScoreKey.cmp k (ScoreKey.new score member)).isLE).length ≤ z.len := by
  have hkey : ScoreKey.new score member ∈ z.byScore := by
    rw [z.agree]
    simp [ScoreKey.new, hscore]
  constructor
  · refine List.length_pos_of_mem (List.mem_filter.mpr ⟨ExtTreeSet.mem_toList.mpr hkey, ?_⟩)
    have hself : ScoreKey.cmp (ScoreKey.new score member) (ScoreKey.new score member) = .eq :=
      ReflCmp.compare_self
    rw [hself]
    rfl
  · rw [← length_byScore]
    exact List.length_filter_le _ _

/-- `ZRANK` never panics. -/
theorem zrankChecked_eq (hfits : z.len < 2 ^ 63) (member : Bytes) :
    z.zrankChecked member = some (z.zrank member) := by
  unfold zrankChecked zrank
  cases hscore : z.scores[member]? with
  | none => rfl
  | some score =>
    obtain ⟨hpos, hle⟩ := length_upTo hscore
    simp only [Option.map_some]
    rw [unsigned_eq (by omega) (by omega)]
    simp

/-- `ZREVRANK` never panics. -/
theorem zrevrankChecked_eq (hfits : z.len < 2 ^ 63) (member : Bytes) :
    z.zrevrankChecked member = some (z.zrevrank member) := by
  rw [zrevrankChecked, zrankChecked_eq hfits, zrevrank]
  cases hrank : z.zrank member with
  | none => rfl
  | some rank =>
    have hlt := zrank_lt hrank
    have hlast : unsigned 64 ((z.len : ℤ) - 1) = some (z.len - 1) := by
      rw [unsigned_eq (by omega) (by omega)]
      congr 1
      omega
    have hrev : unsigned 64 (((z.len - 1 : ℕ) : ℤ) - rank) = some (z.len - 1 - rank) := by
      rw [unsigned_eq (by omega) (by omega)]
      congr 1
      omega
    simp [hlast, hrev]

/-- A range by rank panics for the largest stop only. -/
theorem returns_zrangeByRankChecked (hfits : z.len < 2 ^ 63) (hstart : IsI64 start)
    (hstop : IsI64 stop) (rev : Bool) : Returns (z.zrangeByRankChecked start stop rev)
      (stop ≠ Text.i64Max) (z.zrangeByRank start stop rev) := by
  refine .congr ((returns_windowChecked (by omega) (by omega) hstart hstop).bind fun _ =>
    .of_eq ?_) (and_iff_left trivial)
  have hend : (Text.window z.len start stop).2 < 2 ^ 64 := by
    simp only [Text.window, Text.asUsize]
    omega
  simp only [zrangeByRank]
  split
  · rfl
  · rw [unsigned_eq (by omega) (by omega)]
    simp

/-- Popping by score panics only where there is no room for that many. -/
theorem returns_zpopChecked (S : Sizes) (pop : ZSet → ℕ → List (Bytes × F64) × ZSet) (n : ℕ) :
    Returns (zpopChecked S pop z n) (n * S.scored < 2 ^ 63) (pop z n) := by
  refine .congr ?_ (and_iff_left trivial)
  exact (returns_room S.scored n).bind fun _ => .of_eq rfl

/-- `ZREMRANGEBYRANK` panics for the largest stop only. -/
theorem returns_zremrangebyrankChecked (hfits : z.len < 2 ^ 63) (hstart : IsI64 start)
    (hstop : IsI64 stop) : Returns (z.zremrangebyrankChecked start stop) (stop ≠ Text.i64Max)
      (z.zremrangebyrank start stop) := by
  refine .congr ?_ (and_iff_left trivial)
  exact (returns_zrangeByRankChecked hfits hstart hstop false).bind fun _ => .of_eq rfl

end ZSet

end LoonyRedis
