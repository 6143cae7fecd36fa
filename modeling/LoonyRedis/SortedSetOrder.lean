import LoonyRedis.Contents
import LoonyRedis.Lib.FloatOrder
import LoonyRedis.Lib.Window
import LoonyRedis.SortedSetIndexes
import Mathlib.Data.Fintype.EquivFin

/-!
# The order of a sorted set

The tree of a sorted set is in the order of the encoded scores. This is the order that the source
documents (`encodeScore_lt_iff`) : negative infinity, the negative numbers, the two zeros, the
positive numbers, infinity; then the bytes of the members. What is read from the set is read from
one list in this order, `allWithScores` : ranks are positions in it, ranges by rank its windows,
and ranges by score the entries within the bounds (`ZSet.readsAgree`).

Only the reversed range by rank is not what the reversed list has at these positions. The window is
cut out before it is reversed, which is the same exactly if it is as far from the one end as from
the other (`ZSet.zrangeByRank_rev_iff`).
-/

namespace LoonyRedis

open Std

/-! ## Encoded scores -/

/-- The encoding as a number: magnitudes count up from the middle, or down for negative ones. -/
theorem toNat_encodeScore (x : F64) : (encodeScore x).toNat =
    if x.neg then 2 ^ 63 - 1 - x.mag else 2 ^ 63 + x.mag := by
  obtain ⟨b⟩ := x
  have hlt := b.toNat_lt
  have hneg : (F64.mk b).neg = decide (2 ^ 63 ≤ b.toNat) := rfl
  have hmag : (F64.mk b).mag = b.toNat % 2 ^ 63 := rfl
  have htop : b >>> 63 = 0 ↔ b.toNat < 2 ^ 63 := by
    rw [← UInt64.toNat_inj, UInt64.toNat_shiftRight, Nat.shiftRight_eq_div_pow]
    simp
  rw [encodeScore, hneg, hmag]
  by_cases hb : b.toNat < 2 ^ 63
  · have hor : b.toNat ||| 2 ^ 63 = 2 ^ 63 + b.toNat := by
      have hadd := Nat.two_pow_add_eq_or_of_lt hb 1
      rw [mul_one] at hadd
      rw [Nat.or_comm, hadd]
    simp only [htop, hb, if_true, UInt64.toNat_or]
    have hshift : ((1 : UInt64) <<< 63).toNat = 2 ^ 63 := by decide
    rw [hshift, hor, if_neg (by simpa using hb)]
    omega
  · have hsize : UInt64.size = 2 ^ 64 := rfl
    simp only [htop, hb, if_false, UInt64.toNat_not, hsize]
    rw [if_pos (by simpa using hb)]
    omega

/-- Scores that are numbers are encoded in their order. -/
theorem encodeScore_lt_iff {x y : F64} (hx : x.isNaN = false) (hy : y.isNaN = false) :
    encodeScore x < encodeScore y ↔ x.Before y := by
  have hle := F64.mag_le hx
  have hle' := F64.mag_le hy
  have hbound : F64.infMag < 2 ^ 63 := by decide
  rw [UInt64.lt_iff_toNat_lt, toNat_encodeScore, toNat_encodeScore, F64.before_iff hx hy, F64.key,
    F64.key]
  cases x.neg <;> cases y.neg <;> simp <;> omega

/-- Scores with one encoding are the same. -/
theorem encodeScore_injective : Function.Injective encodeScore := fun x y h => by
  rw [← decodeScore_encodeScore x, h, decodeScore_encodeScore]

/-- There are as many patterns as keys, so every key is the encoding of one. -/
theorem encodeScore_decodeScore (e : UInt64) : encodeScore (decodeScore e) = e := by
  have hfinite : Finite UInt64 :=
    Finite.of_injective UInt64.toFin fun _ _ h => UInt64.toFin_inj.mp h
  have hinj : Function.Injective fun b : UInt64 => encodeScore ⟨b⟩ := fun b c h =>
    congrArg F64.bits (encodeScore_injective h)
  obtain ⟨b, rfl⟩ := Finite.surjective_of_injective hinj e
  rw [decodeScore_encodeScore]

/-- **The encoding is an isomorphism of orders** from the doubles that are numbers, the
negative zero before the positive one, and loses no pattern in either direction. -/
theorem encodeScore_orderIso (x y : F64) (e : UInt64) :
    decodeScore (encodeScore x) = x ∧ encodeScore (decodeScore e) = e ∧
      (x.isNaN = false → y.isNaN = false → (encodeScore x < encodeScore y ↔ x.Before y)) ∧
      (x.lt y = true → encodeScore x < encodeScore y) ∧
      (⊥ < x.value → x.value < 0 → 0 < y.value → y.value < ⊤ →
        F64.negInfinity.Before x ∧ x.Before F64.negZero ∧ F64.negZero.Before F64.zero ∧
          F64.zero.Before y ∧ y.Before F64.infinity) := by
  refine ⟨decodeScore_encodeScore x, encodeScore_decodeScore e, encodeScore_lt_iff, ?_,
    F64.before_chain⟩
  intro hlt
  obtain ⟨hx, hy, hvalue⟩ := F64.lt_iff.mp hlt
  exact (encodeScore_lt_iff hx hy).mpr (Or.inl hvalue)

/-- The zeros are apart, and the largest subnormal is below the smallest normal number. -/
theorem encodeScore_orderIso_subnormal :
    encodeScore F64.negZero < encodeScore F64.zero ∧
      encodeScore ⟨0x000FFFFFFFFFFFFF⟩ < encodeScore ⟨0x0010000000000000⟩ ∧
      F64.negInfinity.Before ⟨0x8000000000000001⟩ :=
  ⟨((encodeScore_orderIso F64.negZero F64.zero 0).2.2.1 (by decide) (by decide)).mpr
      (Or.inr ⟨rfl, rfl⟩),
    (encodeScore_orderIso ⟨0x000FFFFFFFFFFFFF⟩ ⟨0x0010000000000000⟩ 0).2.2.2.1 (by decide),
    ((encodeScore_orderIso ⟨0x8000000000000001⟩ ⟨0x0000000000000001⟩ 0).2.2.2.2 (by decide)
      (by decide) (by decide) (by decide)).1⟩

namespace ZSet

/-- Each score is a number. -/
def NaNFree (z : ZSet) : Prop := ∀ (m : Bytes) (x : F64), z.scores[m]? = some x → x.isNaN = false

/-- By score, then by the bytes of the member. -/
def EntryBefore (p q : Bytes × F64) : Prop :=
  p.2.Before q.2 ∨ p.2 = q.2 ∧ compare p.1 q.1 = .lt

variable {z : ZSet} {m : Bytes} {x : F64} {i : ℕ}

theorem nanFree_new : new.NaNFree := fun _ _ h => by simp [new] at h

/-- A number that is put. -/
theorem NaNFree.put (hz : z.NaNFree) (hx : x.isNaN = false) : (z.put m x).NaNFree := by
  intro m' x' h
  rw [scores_put] at h
  split at h
  · rw [← Option.some.inj h]
    exact hx
  · exact hz m' x' h

/-- A member that is removed. -/
theorem NaNFree.remove (hz : z.NaNFree) : (z.remove m).NaNFree := by
  intro m' x' h
  rw [scores_remove] at h
  split at h
  · cases h
  · exact hz m' x' h

/-! ## The list of the entries -/

/-- The key of an entry. -/
def keyOf (p : Bytes × F64) : ScoreKey := ScoreKey.new p.2 p.1

/-- The ordered index is the listing, encoded. -/
theorem byScore_eq_map_keyOf (z : ZSet) : z.byScore.toList = z.allWithScores.map keyOf := by
  rw [allWithScores, List.map_map]
  refine (List.map_id _).symm.trans (List.map_congr_left fun k hk => ?_)
  obtain ⟨m, s, -, rfl⟩ := (z.mem_byScore_iff k).mp (ExtTreeSet.mem_toList.mp hk)
  simp [keyOf, ScoreKey.new, ScoreKey.score, decodeScore_encodeScore]

/-- The entries are in the order of their keys. -/
theorem pairwise_keyOf (z : ZSet) :
    z.allWithScores.Pairwise fun p q => ScoreKey.cmp (keyOf p) (keyOf q) = .lt := by
  have hordered : z.byScore.toList.Pairwise fun a b => ScoreKey.cmp a b = .lt :=
    ExtTreeSet.ordered_toList
  rw [byScore_eq_map_keyOf] at hordered
  exact List.pairwise_map.mp hordered

/-- For numbers, the order of the keys is that of the entries. -/
theorem cmp_keyOf_lt {p q : Bytes × F64} (hp : p.2.isNaN = false) (hq : q.2.isNaN = false) :
    ScoreKey.cmp (keyOf p) (keyOf q) = .lt ↔ EntryBefore p q := by
  have hcmp : ScoreKey.cmp (keyOf p) (keyOf q) =
      (compare (encodeScore p.2) (encodeScore q.2)).then (compare p.1 q.1) := rfl
  rw [hcmp, Ordering.then_eq_lt, Std.compare_eq_lt, LawfulEqCmp.compare_eq_iff_eq,
    encodeScore_injective.eq_iff, encodeScore_lt_iff hp hq, EntryBefore]

theorem NaNFree.of_mem (hz : z.NaNFree) {p : Bytes × F64} (hp : p ∈ z.allWithScores) :
    p.2.isNaN = false := hz p.1 p.2 ((z.mem_allWithScores_iff p.1 p.2).mp hp)

/-- Without NaN, the listing is sorted by score and then by member. -/
theorem NaNFree.sorted (hz : z.NaNFree) : z.allWithScores.Pairwise EntryBefore :=
  z.pairwise_keyOf.imp_of_mem fun hp hq hlt =>
    (cmp_keyOf_lt (hz.of_mem hp) (hz.of_mem hq)).mp hlt

/-! ## Ranks -/

/-- The entry of a member is at its rank. -/
theorem zrank_of_getElem? (h : z.allWithScores[i]? = some (m, x)) : z.zrank m = some i := by
  have hscore := (z.mem_allWithScores_iff m x).mp (List.mem_of_getElem? h)
  have hkey : z.byScore.toList[i]? = some (ScoreKey.new x m) := by
    rw [byScore_eq_map_keyOf, List.getElem?_map, h]
    rfl
  have hcount := FinMap.length_filter_isLE ExtTreeSet.ordered_toList hkey
  rw [zscore] at hscore
  rw [zrank, hscore, Option.map_some, hcount]
  rfl

/-- The rank of a member is its position in the listing. -/
theorem zrank_eq_some_iff : z.zrank m = some i ↔ ∃ x, z.allWithScores[i]? = some (m, x) := by
  refine ⟨fun h => ?_, fun ⟨x, hx⟩ => zrank_of_getElem? hx⟩
  obtain ⟨x, hx, -⟩ := Option.map_eq_some_iff.mp h
  obtain ⟨j, hj⟩ := List.getElem?_of_mem ((z.mem_allWithScores_iff m x).mpr hx)
  rw [zrank_of_getElem? hj, Option.some.injEq] at h
  rw [← h]
  exact ⟨x, hj⟩

theorem zrank_lt (h : z.zrank m = some i) : i < z.len := by
  obtain ⟨x, hx⟩ := zrank_eq_some_iff.mp h
  rw [← length_allWithScores]
  exact (List.getElem?_eq_some_iff.mp hx).1

/-- The reverse rank of a member is its position in the reversed listing. -/
theorem zrevrank_eq_some_iff :
    z.zrevrank m = some i ↔ ∃ x, z.allWithScores.reverse[i]? = some (m, x) := by
  have hlen := z.length_allWithScores
  constructor
  · intro h
    obtain ⟨r, hr, rfl⟩ := Option.map_eq_some_iff.mp h
    have hlt := zrank_lt hr
    obtain ⟨x, hx⟩ := zrank_eq_some_iff.mp hr
    refine ⟨x, ?_⟩
    rw [List.getElem?_reverse (by omega), hlen, ← hx]
    congr 1
    omega
  · rintro ⟨x, hx⟩
    have hlt := (List.getElem?_eq_some_iff.mp hx).1
    rw [List.length_reverse] at hlt
    rw [List.getElem?_reverse hlt] at hx
    rw [zrevrank, zrank_of_getElem? hx, Option.map_some, hlen]
    congr 1
    omega

/-! ## Ranges by rank -/

section ByRank

variable {start stop : ℤ} (hlen : z.len < 2 ^ 63)

include hlen in

/-- A range by rank is a window of the listing, as long as the arithmetic does not wrap. -/
theorem zrangeByRank_eq_window (hstart : |start| < 2 ^ 62) (hstop : |stop| < 2 ^ 62) :
    z.zrangeByRank start stop false = Window.window z.allWithScores start stop := by
  rw [abs_lt] at hstart hstop
  have hmin : Text.i64Min = -2 ^ 63 := rfl
  have hmax : Text.i64Max = 2 ^ 63 - 1 := rfl
  exact Window.take_drop_eq_window z.length_allWithScores
    (Window.textWindow_fst stop (by omega) (by omega) (by omega) (by omega))
    (Window.textWindow_snd start (by omega) (by omega) (by omega) (by omega))

/-- A reverse range is the range, reversed. -/
theorem zrangeByRank_rev (start stop : ℤ) :
    z.zrangeByRank start stop true = (z.zrangeByRank start stop false).reverse := by
  simp only [zrangeByRank, if_true, Bool.false_eq_true, if_false]
  split <;> rfl

/-- The window is empty, or as far from the first entry as from the last. -/
def Mirrored (z : ZSet) (start stop : ℤ) : Prop :=
  Window.last z.len stop < Window.first z.len start ∨
    Window.first z.len start + Window.last z.len stop = z.len - 1

/-- A reversed window is the window of the reversed listing exactly if it is empty or lies in
the middle. -/
theorem window_reverse_eq_iff (z : ZSet) (start stop : ℤ) :
    (Window.window z.allWithScores start stop).reverse =
      Window.window z.allWithScores.reverse start stop ↔ z.Mirrored start stop := by
  have hlength := z.length_allWithScores
  have hnodup : z.allWithScores.Nodup := z.nodup_allWithScores.of_map
  have hfirst := Window.first_nonneg z.len start
  have hlast := Window.last_lt z.len stop
  rw [Window.window, Window.window, List.length_reverse, hlength, Mirrored]
  by_cases hempty : Window.last z.len stop < Window.first z.len start
  · rw [Window.between_eq_nil hempty, Window.between_eq_nil hempty]
    exact iff_of_true rfl (Or.inl hempty)
  · rw [Window.reverse_between hfirst (by omega), hlength,
      Window.between_inj (List.nodup_reverse.mpr hnodup) (by omega) (by simp; omega) hfirst
        (by simp; omega) (by omega)]
    omega

include hlen in
/-- The reversed range by rank is the window of the reversed list exactly if the window is
mirrored. In particular the entry at a reversed rank is only found in the middle. -/
theorem zrangeByRank_rev_iff :
    (∀ start stop : ℤ, |start| < 2 ^ 62 → |stop| < 2 ^ 62 →
      (z.zrangeByRank start stop true = Window.window z.allWithScores.reverse start stop ↔
        z.Mirrored start stop)) ∧
    ∀ r : ℕ, r < 2 ^ 62 →
      ((∀ m, m ∈ (z.zrangeByRank r r true).map Prod.fst ↔ z.zrevrank m = some r) ↔
        z.Mirrored r r) := by
  have hrev : ∀ start stop : ℤ, |start| < 2 ^ 62 → |stop| < 2 ^ 62 →
      (z.zrangeByRank start stop true = Window.window z.allWithScores.reverse start stop ↔
        z.Mirrored start stop) := by
    intro start stop hstart hstop
    rw [zrangeByRank_rev, zrangeByRank_eq_window hlen hstart hstop]
    exact z.window_reverse_eq_iff start stop
  refine ⟨hrev, fun r hr => ?_⟩
  have hlength := z.length_allWithScores
  have habs : |(r : ℤ)| < 2 ^ 62 := by rw [Nat.abs_cast]; omega
  constructor
  · intro h
    rw [Mirrored, Window.first, Window.last]
    by_cases hlt : r < z.len
    · -- The entry that is returned has this rank, so its reversed rank must be the same.
      obtain ⟨⟨m, x⟩, hp⟩ : ∃ p, z.allWithScores[r]? = some p :=
        ⟨_, List.getElem?_eq_getElem (hlength.symm ▸ hlt)⟩
      have hmem : m ∈ (z.zrangeByRank r r true).map Prod.fst := by
        rw [zrangeByRank_rev, zrangeByRank_eq_window hlen habs habs, Window.window_self, hp]
        exact List.mem_singleton.mpr rfl
      have hrank := (h m).mp hmem
      rw [zrevrank, zrank_of_getElem? hp, Option.map_some, Option.some.injEq] at hrank
      omega
    · omega
  · intro h m
    rw [(hrev r r habs habs).mpr h, Window.window_self, zrevrank_eq_some_iff]
    cases z.allWithScores.reverse[r]? with
    | none => simp
    | some p => simp [Prod.ext_iff, eq_comm]

/-- Two members, `a` with the score 0 and `b` with the score 1. -/
def twoScores : ZSet := (new.put [0x61] F64.zero).put [0x62] F64.one

theorem whole_range_reversed :
    twoScores.zrangeByRank 0 1 true = Window.window twoScores.allWithScores.reverse 0 1 := by
  have hmirrored : twoScores.Mirrored 0 1 := Or.inr (by decide)
  exact ((zrangeByRank_rev_iff (by decide)).1 0 1 (by decide) (by decide)).mpr hmirrored

/-- The greatest entry is asked for, and the least one returned. -/
theorem least_for_greatest : twoScores.zrangeByRank 0 0 true = [([0x61], F64.zero)] ∧
    Window.window twoScores.allWithScores.reverse 0 0 = [([0x62], F64.one)] ∧
    twoScores.zrevrank [0x62] = some 0 := by
  decide

end ByRank

/-! ## Ranges by score -/

end ZSet

namespace ScoreBound

/-- The scores that a lower bound admits : no comparison holds of a bound that is no number. -/
def Lower (b : ScoreBound) (x : F64) : Prop :=
  match b with
  | negInf => True
  | posInf => x.value = ⊤
  | inclusive lo => lo.isNaN = false ∧ lo.value ≤ x.value
  | exclusive lo => lo.isNaN = false ∧ lo.value < x.value

/-- The scores that an upper bound admits. -/
def Upper (b : ScoreBound) (x : F64) : Prop :=
  match b with
  | posInf => True
  | negInf => x.value = ⊥
  | inclusive hi => hi.isNaN = false ∧ x.value ≤ hi.value
  | exclusive hi => hi.isNaN = false ∧ x.value < hi.value

variable {b : ScoreBound} {x : F64} (hx : x.isNaN = false)

include hx in

/-- What a lower bound admits. -/
theorem satisfiesLower_iff : b.satisfiesLower x = true ↔ b.Lower x := by
  cases b with
  | negInf => simp [satisfiesLower, Lower]
  | posInf =>
    have hinf : F64.infinity.isNaN = false := by decide
    have htop : F64.infinity.value = ⊤ := by decide
    simp [satisfiesLower, Lower, F64.eq_iff, hx, hinf, htop]
  | inclusive lo => simp [satisfiesLower, Lower, F64.le_iff, hx]
  | exclusive lo => simp [satisfiesLower, Lower, F64.lt_iff, hx]

include hx in

/-- What an upper bound admits. -/
theorem satisfiesUpper_iff : b.satisfiesUpper x = true ↔ b.Upper x := by
  cases b with
  | posInf => simp [satisfiesUpper, Upper]
  | negInf =>
    have hinf : F64.negInfinity.isNaN = false := by decide
    have hbot : F64.negInfinity.value = ⊥ := by decide
    simp [satisfiesUpper, Upper, F64.eq_iff, hx, hinf, hbot]
  | inclusive hi => simp [satisfiesUpper, Upper, F64.le_iff, hx]
  | exclusive hi => simp [satisfiesUpper, Upper, F64.lt_iff, hx]

end ScoreBound

namespace ZSet

variable {z : ZSet}

open scoped Classical in
/-- What is read of a sorted set is read from the list of its entries. -/
structure ReadsAgree (z : ZSet) : Prop where
  sorted : z.allWithScores.Pairwise EntryBefore
  zrank : ∀ m i, z.zrank m = some i ↔ ∃ x, z.allWithScores[i]? = some (m, x)
  zrevrank : ∀ m i, z.zrank m = some i → i < z.len ∧ z.zrevrank m = some (z.len - 1 - i)
  byRank : ∀ start stop : ℤ, |start| < 2 ^ 62 → |stop| < 2 ^ 62 →
    z.zrangeByRank start stop false = Window.window z.allWithScores start stop
  byScore : ∀ lo hi, z.zrangebyscore lo hi 0 none false =
    z.allWithScores.filter fun p => lo.Lower p.2 ∧ hi.Upper p.2
  count : ∀ lo hi, z.zcount lo hi = (z.zrangebyscore lo hi 0 none false).length
  reversed : ∀ lo hi, z.zrangebyscore lo hi 0 none true =
    (z.zrangebyscore lo hi 0 none false).reverse
  dropped : ∀ lo hi offset rev, z.zrangebyscore lo hi offset none rev =
    (z.zrangebyscore lo hi 0 none rev).drop offset
  taken : ∀ lo hi offset limit rev, z.zrangebyscore lo hi offset (some limit) rev =
    (z.zrangebyscore lo hi offset none rev).take limit

theorem zrevrank_of_zrank {m : Bytes} {i : ℕ} (h : z.zrank m = some i) :
    z.zrevrank m = some (z.len - 1 - i) := by
  rw [ZSet.zrevrank, h, Option.map_some]

open scoped Classical in

/-- A range by score has exactly the members within its bounds. -/
theorem NaNFree.byScore (hz : z.NaNFree) (lo hi : ScoreBound) :
    z.inRange lo hi =
      z.allWithScores.filter fun p => lo.Lower p.2 ∧ hi.Upper p.2 := by
  refine List.filter_congr fun p hp => ?_
  have hnum := hz.of_mem hp
  rw [Bool.eq_iff_iff, Bool.and_eq_true, ScoreBound.satisfiesLower_iff hnum,
    ScoreBound.satisfiesUpper_iff hnum, decide_eq_true_iff]

/-- All reads of a set without NaN agree with its sorted listing. -/
theorem readsAgree (hz : z.NaNFree) (hlen : z.len < 2 ^ 63) : z.ReadsAgree where
  sorted := hz.sorted
  zrank _ _ := zrank_eq_some_iff
  zrevrank _ _ h := ⟨zrank_lt h, zrevrank_of_zrank h⟩
  byRank _ _ hstart hstop := zrangeByRank_eq_window hlen hstart hstop
  byScore lo hi := hz.byScore lo hi
  count _ _ := rfl
  reversed _ _ := rfl
  dropped _ _ _ _ := rfl
  taken _ _ _ _ _ := rfl

theorem readsAgree_twoScores : twoScores.ReadsAgree :=
  readsAgree ((nanFree_new.put (by decide)).put (by decide)) (by decide)

end ZSet

end LoonyRedis
