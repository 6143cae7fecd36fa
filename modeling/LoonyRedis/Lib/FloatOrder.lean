import LoonyRedis.Lib.Float64
import Mathlib.Algebra.Order.Ring.Int
import Mathlib.Data.Int.ConditionallyCompleteOrder
import Mathlib.Order.Monotone.Basic
import Mathlib.Order.WithBot

/-!
# The order of the doubles

The numbers among the doubles are the integers in units of `2 ^ -scale` and two infinities
(`value`). The magnitude patterns are in the order of what they stand for (`units_strictMono`), so
the comparisons, which compare patterns, compare values. `Before` also puts the negative zero
before the positive one, and is then a total order on the doubles that are numbers.
-/

namespace F64

variable {x y z : F64}

/-- The negative zero. -/
def negZero : F64 := make true 0

/-- The number that a double is, if it is one. -/
def value (x : F64) : WithBot (WithTop ℤ) :=
  if x.isInf then if x.neg then ⊥ else ⊤ else ((x.toUnits : WithTop ℤ) : WithBot (WithTop ℤ))

/-! ## Patterns are in the order of the values -/

/-- The next pattern is a greater magnitude. -/
theorem units_succ (m : ℕ) : units m < units (m + 1) := by
  obtain ⟨e, f, hf, rfl⟩ : ∃ e f, f < 2 ^ 52 ∧ m = 2 ^ 52 * e + f :=
    ⟨m / 2 ^ 52, m % 2 ^ 52, Nat.mod_lt _ (by norm_num), (Nat.div_add_mod m _).symm⟩
  by_cases hnext : f + 1 < 2 ^ 52
  · rw [Nat.add_assoc, units_eq hf, units_eq hnext]
    refine Nat.mul_lt_mul_of_pos_right ?_ (Nat.two_pow_pos _)
    split <;> omega
  · -- The next pattern is the first one of the next exponent.
    have hsum : 2 ^ 52 * e + f + 1 = 2 ^ 52 * (e + 1) + 0 := by omega
    rw [hsum, units_eq hf, units_eq (by norm_num), if_neg (Nat.succ_ne_zero e)]
    rw [Nat.add_zero, Nat.add_sub_cancel]
    rcases Nat.eq_zero_or_pos e with rfl | he
    · rw [if_pos rfl, Nat.zero_sub, pow_zero, mul_one, mul_one]
      exact hf
    · obtain ⟨e, rfl⟩ := Nat.exists_eq_succ_of_ne_zero he.ne'
      rw [if_neg (Nat.succ_ne_zero e), Nat.succ_eq_add_one, Nat.add_sub_cancel, pow_succ 2 e,
        ← mul_assoc, mul_right_comm]
      exact Nat.mul_lt_mul_of_pos_right (by omega) (Nat.two_pow_pos _)

theorem units_strictMono : StrictMono units := strictMono_nat_of_lt_succ units_succ

theorem units_zero : units 0 = 0 := rfl

/-- A number is at most infinity. -/
theorem mag_le (hx : x.isNaN = false) : x.mag ≤ infMag := by simpa [isNaN] using hx

/-- Numbers that are not infinite. -/
theorem toUnits_lt_iff : x.toUnits < y.toUnits ↔ x.key < y.key := by
  have hlt := units_strictMono.lt_iff_lt (a := x.mag) (b := y.mag)
  have hgt := units_strictMono.lt_iff_lt (a := y.mag) (b := x.mag)
  have hzero : units x.mag = 0 ↔ x.mag = 0 := units_strictMono.injective.eq_iff' units_zero
  have hzero' : units y.mag = 0 ↔ y.mag = 0 := units_strictMono.injective.eq_iff' units_zero
  rw [toUnits, toUnits, key, key]
  split <;> split <;> omega

theorem key_of_isInf (hinf : x.isInf = true) :
    x.key = if x.neg then -(infMag : ℤ) else infMag := by
  have hmag : x.mag = infMag := by simpa [isInf] using hinf
  rw [key, hmag]

theorem abs_key_lt (hx : x.isNaN = false) (hinf : ¬ x.isInf = true) :
    -(infMag : ℤ) < x.key ∧ x.key < infMag := by
  have hle := mag_le hx
  have hmag : x.mag ≠ infMag := by simpa [isInf] using hinf
  rw [key]
  split <;> omega

/-- The key has the order of the values. -/
theorem value_lt_iff (hx : x.isNaN = false) (hy : y.isNaN = false) :
    x.value < y.value ↔ x.key < y.key := by
  have hpos : 0 < (infMag : ℤ) := by decide
  rw [value, value]
  by_cases hinf : x.isInf = true
  · rw [if_pos hinf, key_of_isInf hinf]
    by_cases hinf' : y.isInf = true
    · rw [if_pos hinf', key_of_isInf hinf']
      cases x.neg <;> cases y.neg
      · simp
      · simp only [Bool.false_eq_true, if_false, if_true]
        exact iff_of_false not_lt_bot (by omega)
      · simp only [Bool.false_eq_true, if_false, if_true]
        exact iff_of_true bot_lt_top (by omega)
      · simp
    · rw [if_neg hinf']
      have hbounds := abs_key_lt hy hinf'
      cases x.neg with
      | false => exact iff_of_false (by simp) (by simp only [Bool.false_eq_true, if_false]; omega)
      | true => exact iff_of_true (WithBot.bot_lt_coe _) hbounds.1
  · rw [if_neg hinf]
    by_cases hinf' : y.isInf = true
    · rw [if_pos hinf', key_of_isInf hinf']
      have hbounds := abs_key_lt hx hinf
      have htop : ((x.toUnits : WithTop ℤ) : WithBot (WithTop ℤ)) < ⊤ :=
        WithBot.coe_lt_coe.mpr (WithTop.coe_lt_top _)
      cases y.neg with
      | false => exact iff_of_true htop hbounds.2
      | true => exact iff_of_false not_lt_bot (by simp only [if_true]; omega)
    · rw [if_neg hinf', WithBot.coe_lt_coe, WithTop.coe_lt_coe]
      exact toUnits_lt_iff

theorem value_le_iff (hx : x.isNaN = false) (hy : y.isNaN = false) :
    x.value ≤ y.value ↔ x.key ≤ y.key := by
  rw [← not_lt, ← not_lt, value_lt_iff hy hx]

theorem value_eq_iff (hx : x.isNaN = false) (hy : y.isNaN = false) :
    x.value = y.value ↔ x.key = y.key := by
  rw [le_antisymm_iff, le_antisymm_iff, value_le_iff hx hy, value_le_iff hy hx]

/-! ## Comparisons -/

/-- `<` compares the values of numbers. -/
theorem lt_iff : x.lt y = true ↔ x.isNaN = false ∧ y.isNaN = false ∧ x.value < y.value := by
  simp only [lt, Bool.and_eq_true, Bool.not_eq_true', decide_eq_true_eq, and_assoc]
  refine and_congr_right fun hx => and_congr_right fun hy => ?_
  exact (value_lt_iff hx hy).symm

/-- `<=` compares the values of numbers. -/
theorem le_iff : x.le y = true ↔ x.isNaN = false ∧ y.isNaN = false ∧ x.value ≤ y.value := by
  simp only [le, Bool.and_eq_true, Bool.not_eq_true', decide_eq_true_eq, and_assoc]
  refine and_congr_right fun hx => and_congr_right fun hy => ?_
  exact (value_le_iff hx hy).symm

/-- `==` compares the values of numbers. -/
theorem eq_iff : x.eq y = true ↔ x.isNaN = false ∧ y.isNaN = false ∧ x.value = y.value := by
  simp only [eq, Bool.and_eq_true, Bool.not_eq_true', decide_eq_true_eq, and_assoc]
  refine and_congr_right fun hx => and_congr_right fun hy => ?_
  exact (value_eq_iff hx hy).symm

/-- Two numbers are always comparable. -/
theorem lt_or_eq_or_gt (hx : x.isNaN = false) (hy : y.isNaN = false) :
    x.lt y = true ∨ x.eq y = true ∨ y.lt x = true := by
  rw [lt_iff, eq_iff, lt_iff, hx, hy]
  simpa using lt_trichotomy x.value y.value

/-! ## The zeros apart -/

/-- In the order of the values, and the negative zero before the positive one. -/
def Before (x y : F64) : Prop := x.value < y.value ∨ x = negZero ∧ y = zero

theorem mag_make (neg : Bool) {m : ℕ} (hm : m < 2 ^ 63) : (make neg m).mag = m := by
  change (UInt64.ofNat ((if neg then 2 ^ 63 else 0) + m)).toNat % 2 ^ 63 = m
  rw [UInt64.toNat_ofNat']
  split <;> omega

theorem neg_make (neg : Bool) {m : ℕ} (hm : m < 2 ^ 63) : (make neg m).neg = neg := by
  change decide (2 ^ 63 ≤ (UInt64.ofNat ((if neg then 2 ^ 63 else 0) + m)).toNat) = neg
  rw [UInt64.toNat_ofNat']
  cases neg with
  | false => exact decide_eq_false (by simp only [Bool.false_eq_true, if_false]; omega)
  | true => exact decide_eq_true (by simp only [if_true]; omega)

/-- The total order puts the negative zero before the positive one. -/
theorem before_iff (hx : x.isNaN = false) (hy : y.isNaN = false) :
    x.Before y ↔ x.key < y.key ∨ x.key = y.key ∧ x.neg = true ∧ y.neg = false := by
  rw [Before, value_lt_iff hx hy]
  refine or_congr_right ⟨?_, ?_⟩
  · rintro ⟨rfl, rfl⟩
    decide
  · rintro ⟨hkey, hneg, hneg'⟩
    rw [key, key, hneg, hneg', if_pos rfl, if_neg Bool.false_ne_true] at hkey
    have hmag : x.mag = 0 := by omega
    have hmag' : y.mag = 0 := by omega
    rw [← make_neg_mag x, ← make_neg_mag y, hneg, hneg', hmag, hmag']
    exact ⟨rfl, rfl⟩

theorem value_negInfinity : negInfinity.value = ⊥ := by decide

theorem value_infinity : infinity.value = ⊤ := by decide

theorem value_zero : zero.value = 0 := by decide

theorem value_negZero : negZero.value = 0 := by decide

/-- The order, from end to end. -/
theorem before_chain (hx : ⊥ < x.value) (hx' : x.value < 0) (hy : 0 < y.value)
    (hy' : y.value < ⊤) :
    negInfinity.Before x ∧ x.Before negZero ∧ negZero.Before zero ∧ zero.Before y ∧
      y.Before infinity := by
  rw [← value_negInfinity] at hx
  rw [← value_infinity] at hy'
  refine ⟨Or.inl hx, Or.inl ?_, Or.inr ⟨rfl, rfl⟩, Or.inl ?_, Or.inl hy'⟩
  · rwa [value_negZero]
  · rwa [value_zero]

/-! ## Sums and products -/

theorem isNaN_make (neg : Bool) {m : ℕ} (hm : m ≤ infMag) : (make neg m).isNaN = false := by
  have hbound : infMag < 2 ^ 63 := by decide
  rw [isNaN, mag_make neg (by omega)]
  exact decide_eq_false (Nat.not_lt.mpr hm)

theorem isNaN_negate (x : F64) : x.negate.isNaN = x.isNaN := by
  have hlt : x.mag < 2 ^ 63 := Nat.mod_lt _ (by norm_num)
  rw [isNaN, isNaN, negate, mag_make _ hlt]

theorem isInf_negate (x : F64) : x.negate.isInf = x.isInf := by
  have hlt : x.mag < 2 ^ 63 := Nat.mod_lt _ (by norm_num)
  rw [isInf, isInf, negate, mag_make _ hlt]

theorem toUnits_negate (x : F64) : x.negate.toUnits = -x.toUnits := by
  have hlt : x.mag < 2 ^ 63 := Nat.mod_lt _ (by norm_num)
  rw [toUnits, toUnits, negate, mag_make _ hlt, neg_make _ hlt]
  cases x.neg <;> simp

/-- Rounding ends at infinity. -/
theorem roundMag_le (num den : ℕ) : roundMag num den ≤ infMag := Nat.min_le_right _ _

/-- A quotient of more than 53 bits is not rounded to zero. -/
theorem roundMag_pos {num den : ℕ} (h : 2 ^ 53 ≤ num / den) : 0 < roundMag num den := by
  have hne : num / den ≠ 0 := by omega
  have hlog : 53 ≤ Nat.log2 (num / den) := (Nat.le_log2 hne).mpr h
  have hinf : 0 < infMag := by decide
  rw [roundMag]
  refine lt_min ?_ hinf
  have hk : 0 < Nat.log2 (num / den) - 52 := by omega
  exact Nat.add_pos_left (Nat.mul_pos hk (Nat.two_pow_pos 52)) _

/-- A NaN is one still when it is made quiet. -/
theorem isNaN_quiet (hx : x.isNaN = true) : x.quiet.isNaN = true := by
  have hlt : x.mag < 2 ^ 63 := Nat.mod_lt _ (by norm_num)
  rw [isNaN, decide_eq_true_eq] at hx ⊢
  rw [quiet, mag_make _ (Nat.or_lt_two_pow hlt (by norm_num))]
  exact hx.trans_le Nat.left_le_or

/-- Numbers only have no sum if they are the two infinities. -/
theorem isNaN_add_iff : (x.add y).isNaN = true ↔
    x.isNaN = true ∨ y.isNaN = true ∨ x.isInf = true ∧ y.isInf = true ∧ x.neg ≠ y.neg := by
  have hnan : indefinite.isNaN = true := by decide
  unfold add
  by_cases hx : x.isNaN = true
  · rw [if_pos hx]
    exact iff_of_true (isNaN_quiet hx) (.inl hx)
  · by_cases hy : y.isNaN = true
    · rw [if_neg hx, if_pos hy]
      exact iff_of_true (isNaN_quiet hy) (.inr (.inl hy))
    · rw [if_neg hx, if_neg hy, or_iff_right hx, or_iff_right hy]
      by_cases hinf : x.isInf = true
      · rw [if_pos hinf]
        by_cases hopp : y.isInf = true ∧ x.neg ≠ y.neg
        · rw [if_pos (by simpa using hopp)]
          exact iff_of_true hnan ⟨hinf, hopp⟩
        · rw [if_neg (by simpa using hopp)]
          exact iff_of_false hx fun h => hopp h.2
      · refine iff_of_false ?_ fun h => hinf h.1
        rw [if_neg hinf, Bool.not_eq_true]
        split
        · exact Bool.eq_false_iff.mpr hy
        · dsimp only
          split
          · exact isNaN_make _ (Nat.zero_le _)
          · exact isNaN_make _ (roundMag_le _ _)

/-- The key determines the value. -/
theorem toUnits_eq_of_key (h : x.key = y.key) : x.toUnits = y.toUnits :=
  le_antisymm (not_lt.mp fun hlt => h.not_gt (toUnits_lt_iff.mp hlt))
    (not_lt.mp fun hlt => h.not_lt (toUnits_lt_iff.mp hlt))

/-- Equal numbers differ by zero. -/
theorem abs_sub_of_value_eq (hx : x.isNaN = false) (hy : y.isNaN = false)
    (hinf : y.isInf = false) (heq : x.value = y.value) : (x.sub y).abs = zero := by
  have hkey : x.key = y.key := (value_eq_iff hx hy).mp heq
  have hinf' : x.isInf = false := by
    have hbounds := abs_key_lt hy (by simp [hinf])
    rw [Bool.eq_false_iff]
    intro hcon
    have hxkey := key_of_isInf hcon
    split at hxkey <;> omega
  have hzero : x.toUnits + y.negate.toUnits = 0 := by
    rw [toUnits_negate, toUnits_eq_of_key hkey]
    omega
  rw [sub, add, isNaN_negate, isInf_negate]
  simp only [hx, hy, hinf, hinf', hzero, Bool.and_false, Bool.false_eq_true, if_false, if_true]
  rw [abs, mag_make _ (by norm_num)]
  rfl

/-- An infinity has no difference to itself. -/
theorem sub_of_isInf (hinf : y.isInf = true) (hkey : x.key = y.key) (hx : x.isNaN = false) :
    (x.sub y).isNaN = true := by
  have hy : y.isNaN = false := by
    simp only [isInf, decide_eq_true_eq] at hinf
    simp [isNaN, hinf]
  have hsame : x = y := by
    rcases eq_or_zero_of_eq (show x.eq y = true by simp [eq, hx, hy, hkey]) with heq | ⟨-, hzero⟩
    · exact heq
    · rw [isInf, hzero] at hinf
      exact absurd hinf (by decide)
  subst hsame
  have hlt : x.mag < 2 ^ 63 := Nat.mod_lt _ (by norm_num)
  rw [sub, hx, Bool.and_false, if_neg Bool.false_ne_true]
  refine isNaN_add_iff.mpr (Or.inr (Or.inr ⟨hinf, by rwa [isInf_negate], ?_⟩))
  rw [negate, neg_make _ hlt]
  cases x.neg <;> decide

theorem mag_epsilon : epsilon.mag = 971 * 2 ^ 52 := mag_make _ (by norm_num)

/-- The least magnitude of an exponent. -/
theorem units_exponent {e : ℕ} (he : e ≠ 0) : units (e * 2 ^ 52) = 2 ^ (52 + (e - 1)) := by
  have hunits := units_eq (e := e) (Nat.two_pow_pos 52)
  rwa [if_neg he, Nat.add_zero, Nat.add_zero, ← pow_add, mul_comm] at hunits

theorem max_one (hy : y.isNaN = false) (hinf : y.isInf = false) :
    ∃ m, 1023 * 2 ^ 52 ≤ m ∧ m < infMag ∧ y.abs.max one = make false m := by
  have hlt : y.mag < 2 ^ 63 := Nat.mod_lt _ (by norm_num)
  have hyabs : y.abs.isNaN = false := isNaN_make _ (mag_le hy)
  have hone : one.isNaN = false := by decide
  rw [max, hyabs, hone]
  simp only [Bool.false_eq_true, if_false]
  split
  · exact ⟨_, le_rfl, by decide, rfl⟩
  · next hless =>
    have hkey : y.abs.key = y.mag := by
      rw [key, abs, neg_make _ hlt, mag_make _ hlt, if_neg Bool.false_ne_true]
    have hone' : one.key = 1023 * 2 ^ 52 := by decide
    rw [lt, hyabs, hone, hkey, hone'] at hless
    simp only [Bool.not_false, Bool.true_and, decide_eq_true_eq] at hless
    have hmag : y.mag ≠ infMag := by simpa [isInf] using hinf
    exact ⟨y.mag, by omega, lt_of_le_of_ne (mag_le hy) hmag, rfl⟩

theorem zero_lt_make {m : ℕ} (hpos : 0 < m) (hle : m ≤ infMag) :
    zero.lt (make false m) = true := by
  have hbound : infMag < 2 ^ 63 := by decide
  have hzero : zero.key = 0 := by decide
  have hnan : zero.isNaN = false := by decide
  rw [lt, isNaN_make _ hle, hnan, hzero, key, neg_make _ (by omega), mag_make _ (by omega),
    if_neg Bool.false_ne_true]
  exact decide_eq_true (by omega)

/-- The gap that `epsilon` gives relative to a number is positive. -/
theorem gap_pos (hy : y.isNaN = false) (hinf : y.isInf = false) :
    zero.lt (epsilon.mul (y.abs.max one)) = true := by
  obtain ⟨m, hm, hle, hmax⟩ := max_one hy hinf
  have hbound : infMag < 2 ^ 63 := by decide
  have hunits : 2 ^ scale ≤ units m := by
    have hscale : 52 + (1023 - 1) = scale := rfl
    rw [← hscale, ← units_exponent (by norm_num)]
    exact units_strictMono.monotone hm
  have hround : 0 < roundMag (units (971 * 2 ^ 52) * units m) (2 ^ scale) := by
    refine roundMag_pos ((Nat.le_div_iff_mul_le (Nat.two_pow_pos _)).mpr ?_)
    rw [units_exponent (by norm_num)]
    generalize hexp : 52 + (971 - 1) = k
    have hk : 53 ≤ k := by omega
    exact Nat.mul_le_mul (Nat.pow_le_pow_right Nat.two_pos hk) hunits
  have hfin : (make false m).isInf = false := by
    rw [isInf, mag_make _ (by omega)]
    exact decide_eq_false hle.ne
  have hnan : epsilon.isNaN = false := by decide
  have hfin' : epsilon.isInf = false := by decide
  have hneg : epsilon.neg = false := by decide
  rw [hmax, mul, isNaN_make _ hle.le, hfin, hnan, hfin', neg_make _ (by omega), hneg, mag_epsilon,
    mag_make _ (by omega)]
  exact zero_lt_make hround (roundMag_le _ _)

end F64
