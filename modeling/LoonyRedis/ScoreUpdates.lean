import LoonyRedis.SortedSetOrder
import LoonyRedis.Unchanged

/-!
# Updates of scores

`zadd` adds a member, gives it another score, or leaves the set as it is, and its two counts say
which. An equal score is kept by a test of the difference, which must be below a gap relative to
the old score, and of equality. For finite scores this is equality (`keepsScore_iff`), but an
infinity has no difference to itself : where the flags select an infinite score again, the set does
not change and the member counts as changed. The counts are right exactly for the other updates
(`ZSet.zaddExact_iff`).
-/

namespace LoonyRedis

open ZSet (keepsScore)

variable {flags : ZaddFlags} {old x : F64}

/-- The test keeps the equal scores that are finite. -/
theorem keepsScore_iff : keepsScore old x = true ↔ x.eq old = true ∧ old.isInf = false := by
  rw [keepsScore, Bool.and_eq_true, and_comm]
  refine and_congr_right fun heq => ?_
  obtain ⟨hx, hold, hvalue⟩ := F64.eq_iff.mp heq
  cases hinf : old.isInf with
  | false =>
    rw [F64.abs_sub_of_value_eq hx hold hinf hvalue]
    exact iff_of_true (F64.gap_pos hold hinf) rfl
  | true =>
    have hnan := F64.sub_of_isInf hinf ((F64.value_eq_iff hx hold).mp hvalue) hx
    have hlt : (x.sub old).mag < 2 ^ 63 := Nat.mod_lt _ (by norm_num)
    have habs : (x.sub old).abs.isNaN = true := by rwa [F64.isNaN, F64.abs, F64.mag_make _ hlt]
    refine iff_of_false (fun hless => ?_) Bool.false_ne_true.symm
    have hnum := (F64.lt_iff.mp hless).1
    rw [habs] at hnum
    cases hnum

/-- The score that the flags select for a member that has one. -/
def ZaddFlags.select (flags : ZaddFlags) (old x : F64) : F64 :=
  if flags.gt then if old.lt x then x else old
  else if flags.lt then if x.lt old then x else old
  else x

theorem ZaddFlags.select_cases (flags : ZaddFlags) (old x : F64) :
    flags.select old x = old ∨ flags.select old x = x := by
  unfold select
  grind

/-- The flags select the old number again. -/
def ZaddFlags.Reselects (flags : ZaddFlags) (old x : F64) : Prop :=
  if flags.gt then x.value ≤ old.value
  else if flags.lt then old.value ≤ x.value
  else x.value = old.value

theorem ZaddFlags.select_value_eq_iff (hold : old.isNaN = false) (hx : x.isNaN = false) :
    (flags.select old x).value = old.value ↔ flags.Reselects old x := by
  have hlt : old.lt x = true ↔ old.value < x.value :=
    F64.lt_iff.trans ⟨fun h => h.2.2, fun h => ⟨hold, hx, h⟩⟩
  have hgt : x.lt old = true ↔ x.value < old.value :=
    F64.lt_iff.trans ⟨fun h => h.2.2, fun h => ⟨hx, hold, h⟩⟩
  unfold ZaddFlags.select ZaddFlags.Reselects
  split
  · split
    · next hless => exact iff_of_false (hlt.mp hless).ne' (hlt.mp hless).not_ge
    · next hless => exact iff_of_true rfl (not_lt.mp (mt hlt.mpr hless))
  · split
    · split
      · next hless => exact iff_of_false (hgt.mp hless).ne (hgt.mp hless).not_ge
      · next hless => exact iff_of_true rfl (not_lt.mp (mt hgt.mpr hless))
    · rfl

namespace ZSet

variable {z : ZSet} {m : Bytes}

theorem zadd_of_none (hx : x.isNaN = false) (hnone : z.scores[m]? = none) :
    z.zadd x m flags.nx flags.xx flags.gt flags.lt =
      if flags.xx then ((0, 0), z) else ((1, 1), z.put m x) := by
  simp only [zadd, hx, hnone, Bool.false_eq_true, if_false]

theorem zadd_of_some (hx : x.isNaN = false) (hold : z.scores[m]? = some old) :
    z.zadd x m flags.nx flags.xx flags.gt flags.lt =
      if flags.nx then ((0, 0), z)
      else if keepsScore old (flags.select old x) then ((0, 0), z)
      else ((0, 1), z.put m (flags.select old x)) := by
  simp only [zadd, hx, hold, Bool.false_eq_true, if_false]
  rfl

/-! ## What the counts say -/

/-- The member was missing, and has the score now. -/
def Added (z w : ZSet) (m : Bytes) (x : F64) : Prop := z.zscore m = none ∧ w.zscore m = some x

/-- The member had a score, and has a different number now. -/
def Rescored (z w : ZSet) (m : Bytes) : Prop :=
  ∃ old new, z.zscore m = some old ∧ w.zscore m = some new ∧ new.value ≠ old.value

/-- The counts of an update, and the set after it, are what the flags promise. -/
structure ZaddExact (z : ZSet) (x : F64) (m : Bytes) (flags : ZaddFlags) (r : (ℕ × ℕ) × ZSet) :
    Prop where
  added : r.1 = (1, 1) ↔ z.Added r.2 m x
  rescored : r.1 = (0, 1) ↔ z.Rescored r.2 m
  otherwise : ¬ z.Added r.2 m x → ¬ z.Rescored r.2 m → r.1 = (0, 0) ∧ r.2 = z
  nx : flags.nx = true → z.zscore m ≠ none → r.2.zscore m = z.zscore m
  xx : flags.xx = true → z.zscore m = none → r.2.zscore m = none
  gt : flags.gt = true → ∀ old new, z.zscore m = some old → r.2.zscore m = some new →
    old.value ≤ new.value
  lt : flags.lt = true → flags.gt = false → ∀ old new, z.zscore m = some old →
    r.2.zscore m = some new → new.value ≤ old.value
  others : ∀ m', m' ≠ m → r.2.zscore m' = z.zscore m'

theorem not_added_self : ¬ z.Added z m x := fun ⟨hnone, hsome⟩ => by
  rw [hnone] at hsome
  cases hsome

theorem not_rescored_self : ¬ z.Rescored z m := fun ⟨old, new, hold, hnew, hne⟩ => by
  obtain rfl := Option.some.inj (hold.symm.trans hnew)
  exact hne rfl

theorem zaddExact_self : z.ZaddExact x m flags ((0, 0), z) where
  added := iff_of_false (by simp) not_added_self
  rescored := iff_of_false (by simp) not_rescored_self
  otherwise := fun _ _ => ⟨rfl, rfl⟩
  nx := fun _ _ => rfl
  xx := fun _ hnone => hnone
  gt := fun _ old new hold hnew => by
    obtain rfl := Option.some.inj (hold.symm.trans hnew)
    exact le_rfl
  lt := fun _ _ old new hold hnew => by
    obtain rfl := Option.some.inj (hold.symm.trans hnew)
    exact le_rfl
  others := fun _ _ => rfl

theorem zscore_put_self (z : ZSet) (m : Bytes) (x : F64) : (z.put m x).zscore m = some x := by
  rw [zscore, scores_put, if_pos rfl]

theorem zscore_put_ne {m' : Bytes} (h : m' ≠ m) : (z.put m x).zscore m' = z.zscore m' := by
  rw [zscore, scores_put, if_neg (Ne.symm h), zscore]

theorem zaddExact_added (hnone : z.scores[m]? = none) (hxx : flags.xx = false) :
    z.ZaddExact x m flags ((1, 1), z.put m x) where
  added := iff_of_true rfl ⟨hnone, z.zscore_put_self m x⟩
  rescored := iff_of_false (by simp) fun ⟨old, _, hold, _⟩ => by
    rw [zscore, hnone] at hold
    cases hold
  otherwise := fun hadded _ => absurd ⟨hnone, z.zscore_put_self m x⟩ hadded
  nx := fun _ hne => absurd hnone hne
  xx := fun h => by
    rw [hxx] at h
    cases h
  gt := fun _ old _ hold => by
    rw [zscore, hnone] at hold
    cases hold
  lt := fun _ _ old _ hold => by
    rw [zscore, hnone] at hold
    cases hold
  others := fun _ h => zscore_put_ne h

/-- A member that gets another number is exactly what `(0, 1)` stands for. -/
theorem zaddExact_rescored (hold : z.scores[m]? = some old) (hnx : flags.nx = false) :
    z.ZaddExact x m flags ((0, 1), z.put m (flags.select old x)) ↔
      (flags.select old x).value ≠ old.value := by
  have hput := z.zscore_put_self m (flags.select old x)
  constructor
  · intro hexact
    obtain ⟨old', new, hold', hnew, hne⟩ := hexact.rescored.mp rfl
    obtain rfl := Option.some.inj (hold.symm.trans hold')
    obtain rfl := Option.some.inj (hput.symm.trans hnew)
    exact hne
  · intro hne
    have hchanged : z.Rescored (z.put m (flags.select old x)) m := ⟨old, _, hold, hput, hne⟩
    refine ⟨iff_of_false (by simp) fun hadded => ?_, iff_of_true rfl hchanged,
      fun _ hnot => absurd hchanged hnot, fun h => ?_, fun _ hnone => ?_, ?_, ?_, ?_⟩
    · rw [Added, zscore, hold] at hadded
      cases hadded.1
    · rw [hnx] at h
      cases h
    · rw [zscore, hold] at hnone
      cases hnone
    · intro hgt old' new hold' hnew
      obtain rfl := Option.some.inj (hold.symm.trans hold')
      obtain rfl := Option.some.inj (hput.symm.trans hnew)
      unfold ZaddFlags.select
      rw [if_pos hgt]
      split
      · next hless => exact (F64.lt_iff.mp hless).2.2.le
      · exact le_rfl
    · intro hlt hgt old' new hold' hnew
      obtain rfl := Option.some.inj (hold.symm.trans hold')
      obtain rfl := Option.some.inj (hput.symm.trans hnew)
      unfold ZaddFlags.select
      rw [if_neg (by simp [hgt]), if_pos hlt]
      split
      · next hless => exact (F64.lt_iff.mp hless).2.2.le
      · exact le_rfl
    · exact fun _ h => zscore_put_ne h

/-- The member has an infinite score, and the flags select it again. -/
def KeepsInfinite (z : ZSet) (x : F64) (m : Bytes) (flags : ZaddFlags) : Prop :=
  flags.nx = false ∧ ∃ old, z.zscore m = some old ∧ old.isInf = true ∧ flags.Reselects old x

/-- The counts and the set are right if and only if no infinite score is selected again. -/
theorem zaddExact_iff (hz : z.NaNFree) (hx : x.isNaN = false) :
    z.ZaddExact x m flags (z.zadd x m flags.nx flags.xx flags.gt flags.lt) ↔
      ¬ z.KeepsInfinite x m flags := by
  cases hold : z.scores[m]? with
  | none =>
    have hkeeps : ¬ z.KeepsInfinite x m flags := fun ⟨_, old, hsome, _⟩ => by
      rw [zscore, hold] at hsome
      cases hsome
    refine iff_of_true ?_ hkeeps
    rw [zadd_of_none hx hold]
    split
    · exact zaddExact_self
    · next hxx => exact zaddExact_added hold (by simpa using hxx)
  | some old =>
    rw [zadd_of_some hx hold]
    by_cases hnx : flags.nx = true
    · rw [if_pos hnx]
      refine iff_of_true zaddExact_self fun hkeeps => ?_
      rw [KeepsInfinite, hnx] at hkeeps
      cases hkeeps.1
    · have hnx' : flags.nx = false := by simpa using hnx
      have hnum : old.isNaN = false := hz m old hold
      have hsel : (flags.select old x).isNaN = false := by
        rcases flags.select_cases old x with h | h <;> rw [h] <;> assumption
      have heq : (flags.select old x).eq old = true ↔ flags.Reselects old x := by
        rw [F64.eq_iff, ← ZaddFlags.select_value_eq_iff hnum hx]
        exact ⟨fun h => h.2.2, fun h => ⟨hsel, hnum, h⟩⟩
      have hkeeps : z.KeepsInfinite x m flags ↔
          old.isInf = true ∧ flags.Reselects old x := by
        rw [KeepsInfinite, and_iff_right hnx', zscore, hold]
        simp only [Option.some.injEq, exists_eq_left']
      rw [if_neg hnx, hkeeps]
      split
      · next hkept =>
        have hfinite := (keepsScore_iff.mp hkept).2
        refine iff_of_true zaddExact_self fun h => ?_
        rw [hfinite] at h
        cases h.1
      · next hkept =>
        rw [zaddExact_rescored hold hnx', Ne, ZaddFlags.select_value_eq_iff hnum hx]
        rw [keepsScore_iff, heq, not_and, Bool.not_eq_false] at hkept
        exact not_congr ⟨fun h => ⟨hkept h, h⟩, fun h => h.2⟩

/-- A higher score for a member, with `GT`. -/
theorem zaddExact_twoScores : twoScores.ZaddExact F64.one [0x61] ⟨false, false, true, false, false⟩
    (twoScores.zadd F64.one [0x61] false false true false) :=
  (zaddExact_iff ((nanFree_new.put (by decide)).put (by decide)) (by decide)).mpr
    fun ⟨_, old, hold, hinf, _⟩ => by
      have hzero : twoScores.zscore [0x61] = some F64.zero := by decide
      obtain rfl := Option.some.inj (hzero.symm.trans hold)
      cases hinf

/-- Adding a member again with the infinite score that it has counts as a change. -/
theorem infinity_counts_again :
    ((new.put [0x61] F64.infinity).zadd F64.infinity [0x61] false false false false).1 = (0, 1) ∧
    ¬ (new.put [0x61] F64.infinity).ZaddExact F64.infinity [0x61] {}
      ((new.put [0x61] F64.infinity).zadd F64.infinity [0x61] false false false false) := by
  have hcount : ((new.put [0x61] F64.infinity).zadd F64.infinity [0x61] false false false false).1
      = (0, 1) := by decide
  have hbefore : (new.put [0x61] F64.infinity).zscore [0x61] = some F64.infinity := by decide
  have hafter : ((new.put [0x61] F64.infinity).zadd F64.infinity [0x61] false false false
      false).2.zscore [0x61] = some F64.infinity := by decide
  refine ⟨hcount, fun hexact => ?_⟩
  obtain ⟨old, new, hold, hnew, hne⟩ := hexact.rescored.mp hcount
  obtain rfl := Option.some.inj (hbefore.symm.trans hold)
  obtain rfl := Option.some.inj (hafter.symm.trans hnew)
  exact hne rfl

end ZSet

end LoonyRedis
