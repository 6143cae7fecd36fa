import LoonyRedis.Contents
import LoonyRedis.Requests

/-!
# Pairs of a score and a member

`ZADD` gives a sorted set its pairs one after the other. A member is left with the score that the
pairs naming it give it in turn, so the set is what it was exactly if each member has its old
score after them (`ZSet.zaddAll_eq_iff_keepsScores`).
-/

namespace LoonyRedis

open Std

namespace ZSet

variable {z : ZSet}

theorem eq_iff_scores {z w : ZSet} : z = w ↔ ∀ m : Bytes, z.scores[m]? = w.scores[m]? :=
  ⟨fun h _ => by rw [h], fun h => ext_scores (ExtTreeMap.ext_getElem? fun m => h m)⟩

theorem put_eq_iff {m : Bytes} {x : F64} : z.put m x = z ↔ z.scores[m]? = some x := by
  simp only [eq_iff_scores, scores_put]
  constructor
  · intro h
    rw [← h m, if_pos rfl]
  · intro h m'
    split
    · next hm => rw [← hm, h]
    · rfl

/-- `ZADD` of a score that is equal leaves the old one. -/
def keepsScore (old x : F64) : Bool :=
  (x.sub old).abs.lt (F64.epsilon.mul (old.abs.max F64.one)) && x.eq old

/-- The zeros of both signs are kept for each other. -/
theorem keepsScore_of_zero {x y : F64} (hx : x.mag = 0) (hy : y.mag = 0) :
    keepsScore y x = true := by
  have hall : ∀ a b : Bool, keepsScore (F64.make b 0) (F64.make a 0) = true := by decide +kernel
  rw [← F64.make_neg_mag x, ← F64.make_neg_mag y, hx, hy]
  exact hall _ _

end ZSet

/-- The score of a member after a pair with the score `x`, if it had the score `old` or
none before. -/
def ZaddFlags.rescore (flags : ZaddFlags) (old : Option F64) (x : F64) : Option F64 :=
  if x.isNaN then old
  else match old with
    | none => if flags.xx then none else some x
    | some y =>
      if flags.nx then some y
      else if flags.gt then if y.lt x then some x else some y
      else if flags.lt then if x.lt y then some x else some y
      else if x.eq y then some y else some x

theorem ZaddFlags.rescore_eq_none_iff (flags : ZaddFlags) {old : Option F64} {x : F64} :
    flags.rescore old x = none ↔ old = none ∧ (x.isNaN = true ∨ flags.xx = true) := by
  unfold rescore
  cases old with
  | none => by_cases hx : x.isNaN = true <;> simp [hx]
  | some y => grind

/-- The scores that `adds` has for a member. -/
def scoresOf (m : Bytes) (adds : List (F64 × Bytes)) : List F64 :=
  (adds.filter fun p => p.2 = m).map Prod.fst

namespace ZSet

variable (flags : ZaddFlags) {z : ZSet}

/-- Add members to a sorted set, one after the other. -/
def zaddAll (flags : ZaddFlags) (z : ZSet) (adds : List (F64 × Bytes)) : ZSet :=
  adds.foldl (fun z p => (z.zadd p.1 p.2 flags.nx flags.xx flags.gt flags.lt).2) z

/-- Each member has the same score after the pairs that name it, in turn. -/
def KeepsScores (z : ZSet) (adds : List (F64 × Bytes)) : Prop :=
  ∀ m : Bytes, (scoresOf m adds).foldl flags.rescore z.scores[m]? = z.scores[m]?

/-- Some pair adds a member. -/
def Gains (z : ZSet) (adds : List (F64 × Bytes)) : Prop :=
  flags.xx = false ∧ ∃ p ∈ adds, p.1.isNaN = false ∧ z.scores[p.2]? = none

/-- The numbers of added and of changed members. -/
def zaddCounts : List (F64 × Bytes) → ZSet → ℕ × ℕ
  | [], _ => (0, 0)
  | (x, m) :: adds, z =>
    let r := z.zadd x m flags.nx flags.xx flags.gt flags.lt
    (r.1.1 + (zaddCounts adds r.2).1, r.1.2 + (zaddCounts adds r.2).2)

/-- Writing a score that is kept, or that is equal, comes to the same. -/
theorem put_of_eq {m : Bytes} {x y : F64} (hy : z.scores[m]? = some y) :
    (if keepsScore y x then z else z.put m x) = if x.eq y then z else z.put m x := by
  by_cases hkeep : keepsScore y x = true
  · have heq : x.eq y = true := by
      rw [keepsScore, Bool.and_eq_true] at hkeep
      exact hkeep.2
    rw [if_pos hkeep, if_pos heq]
  · rw [if_neg hkeep]
    split
    · next heq =>
      rcases F64.eq_or_zero_of_eq heq with rfl | ⟨hx, hy⟩
      · exact put_eq_iff.mpr hy
      · exact absurd (keepsScore_of_zero hx hy) hkeep
    · rfl

theorem not_keepsScore_of_lt {x y : F64} (h : y.lt x = true ∨ x.lt y = true) :
    ¬ keepsScore y x = true := by
  intro hkeep
  rw [keepsScore, Bool.and_eq_true] at hkeep
  have heq := hkeep.2
  simp only [F64.lt, F64.eq, Bool.and_eq_true, decide_eq_true_eq] at h heq
  omega

/-- What one pair does to the set. -/
theorem zadd_snd (z : ZSet) (x : F64) (m : Bytes) :
    (z.zadd x m flags.nx flags.xx flags.gt flags.lt).2 =
      match flags.rescore z.scores[m]? x with
      | some w => z.put m w
      | none => z := by
  have hsame {y : F64} (hy : z.scores[m]? = some y) : z.put m y = z := put_eq_iff.mpr hy
  have hwrite (y w : F64) : (if keepsScore y w = true then (((0, 0), z) : (ℕ × ℕ) × ZSet)
      else ((0, 1), z.put m w)).2 = if keepsScore y w = true then z else z.put m w := by
    split <;> rfl
  unfold zadd ZaddFlags.rescore
  cases hold : z.scores[m]? with
  | none =>
    by_cases hx : x.isNaN = true
    · simp [hx]
    · by_cases hxx : flags.xx = true <;> simp [hx, hxx]
  | some y =>
    by_cases hx : x.isNaN = true
    · simp [hx, hsame hold]
    · by_cases hnx : flags.nx = true
      · simp [hx, hnx, hsame hold]
      · simp only [hx, hnx, Bool.false_eq_true, if_false]
        refine (hwrite y _).trans ?_
        by_cases hgt : flags.gt = true
        · simp only [hgt, if_true]
          by_cases hlt : y.lt x = true
          · simp [hlt, not_keepsScore_of_lt (Or.inl hlt)]
          · simp [hlt, hsame hold]
        · simp only [hgt, Bool.false_eq_true, if_false]
          by_cases hlt : flags.lt = true
          · simp only [hlt, if_true]
            by_cases hless : x.lt y = true
            · simp [hless, not_keepsScore_of_lt (Or.inr hless)]
            · simp [hless, hsame hold]
          · simp only [hlt, Bool.false_eq_true, if_false, put_of_eq hold]
            by_cases heq : x.eq y = true
            · simp [heq, hsame hold]
            · simp [heq]

theorem scores_zadd (z : ZSet) (x : F64) (m m' : Bytes) :
    (z.zadd x m flags.nx flags.xx flags.gt flags.lt).2.scores[m']? =
      if m = m' then flags.rescore z.scores[m']? x else z.scores[m']? := by
  rw [zadd_snd]
  by_cases hm : m = m'
  · subst hm
    cases hre : flags.rescore z.scores[m]? x with
    | some w => simp [scores_put]
    | none => rw [if_pos rfl, ((flags.rescore_eq_none_iff).mp hre).1]
  · rw [if_neg hm]
    split
    · rw [scores_put, if_neg hm]
    · rfl

/-- The score of a member after the pairs that name it, in turn. -/
theorem scores_zaddAll : ∀ (adds : List (F64 × Bytes)) (z : ZSet) (m : Bytes),
    (z.zaddAll flags adds).scores[m]? = (scoresOf m adds).foldl flags.rescore z.scores[m]?
  | [], _, _ => rfl
  | (x, g) :: adds, z, m => by
    have hcons : z.zaddAll flags ((x, g) :: adds) =
        (z.zadd x g flags.nx flags.xx flags.gt flags.lt).2.zaddAll flags adds := rfl
    rw [hcons, scores_zaddAll adds, scores_zadd]
    by_cases hg : g = m
    · simp [scoresOf, hg]
    · simp [scoresOf, hg]

theorem zaddAll_eq_iff_keepsScores {adds : List (F64 × Bytes)} :
    z.zaddAll flags adds = z ↔ z.KeepsScores flags adds := by
  rw [eq_iff_scores]
  exact forall_congr' fun m => by rw [scores_zaddAll]

/-- What one pair counts as. -/
theorem zadd_fst (z : ZSet) (x : F64) (m : Bytes) :
    ((z.zadd x m flags.nx flags.xx flags.gt flags.lt).1.1 =
      if flags.xx = false ∧ x.isNaN = false ∧ z.scores[m]? = none then 1 else 0) ∧
    ((z.zadd x m flags.nx flags.xx flags.gt flags.lt).1.2 = 0 →
      (z.zadd x m flags.nx flags.xx flags.gt flags.lt).2 = z) := by
  unfold zadd
  grind

theorem zaddCounts_fst_pos : ∀ {adds : List (F64 × Bytes)} {z : ZSet},
    0 < (zaddCounts flags adds z).1 ↔ z.Gains flags adds
  | [], z => by simp [zaddCounts, Gains]
  | (x, m) :: adds, z => by
    have hstep := (zadd_fst flags z x m).1
    have ih := @zaddCounts_fst_pos adds (z.zadd x m flags.nx flags.xx flags.gt flags.lt).2
    rw [zaddCounts, hstep]
    split
    · next hadd =>
      refine iff_of_true (by omega) ⟨hadd.1, (x, m), List.mem_cons_self, hadd.2⟩
    · next hadd =>
      rw [Nat.zero_add, ih, Gains, Gains]
      refine and_congr_right fun hxx => ?_
      -- The pair itself adds nothing, and it leaves the same members missing.
      have hnone (g : Bytes) :
          (z.zadd x m flags.nx flags.xx flags.gt flags.lt).2.scores[g]? = none ↔
            z.scores[g]? = none := by
        rw [scores_zadd]
        split
        · next hg =>
          rw [flags.rescore_eq_none_iff, and_iff_left_iff_imp]
          intro hg'
          by_contra hnan
          simp only [not_or, Bool.not_eq_true] at hnan
          exact hadd ⟨hxx, hnan.1, hg ▸ hg'⟩
        · rfl
      simp only [hnone, List.exists_mem_cons_iff]
      refine (or_iff_right fun h => hadd ⟨hxx, h⟩).symm

theorem zaddAll_of_zaddCounts : ∀ {adds : List (F64 × Bytes)} {z : ZSet},
    (zaddCounts flags adds z).2 = 0 → z.zaddAll flags adds = z
  | [], _, _ => rfl
  | (x, m) :: adds, z, h => by
    obtain ⟨hstep, hrest⟩ := Nat.add_eq_zero_iff.mp h
    have hz := (zadd_fst flags z x m).2 hstep
    have hcons : z.zaddAll flags ((x, m) :: adds) =
        (z.zadd x m flags.nx flags.xx flags.gt flags.lt).2.zaddAll flags adds := rfl
    rw [hcons, zaddAll_of_zaddCounts hrest, hz]

theorem zaddCounts_fst_le : ∀ (adds : List (F64 × Bytes)) (z : ZSet),
    (zaddCounts flags adds z).1 ≤ (zaddCounts flags adds z).2
  | [], _ => le_rfl
  | (x, m) :: adds, z => by
    have ih := zaddCounts_fst_le adds (z.zadd x m flags.nx flags.xx flags.gt flags.lt).2
    have hstep : (z.zadd x m flags.nx flags.xx flags.gt flags.lt).1.1 ≤
        (z.zadd x m flags.nx flags.xx flags.gt flags.lt).1.2 := by
      unfold zadd
      grind
    exact Nat.add_le_add hstep ih

/-- On an empty set, nothing changes before something is added. -/
theorem zaddCounts_new : ∀ {adds : List (F64 × Bytes)}, ¬ new.Gains flags adds →
    zaddCounts flags adds new = (0, 0)
  | [], _ => rfl
  | (x, m) :: adds, h => by
    have hnone : (new.scores : ExtTreeMap Bytes F64 compare)[m]? = none := by simp [new]
    have hidle : x.isNaN = true ∨ flags.xx = true := by
      by_contra hidle
      simp only [not_or, Bool.not_eq_true] at hidle
      exact h ⟨hidle.2, (x, m), List.mem_cons_self, hidle.1, hnone⟩
    have hstep : new.zadd x m flags.nx flags.xx flags.gt flags.lt = ((0, 0), new) := by
      simp only [zadd, hnone]
      grind
    have hrest : ¬ new.Gains flags adds := by
      rintro ⟨hxx, p, hp, hgain⟩
      exact h ⟨hxx, p, List.mem_cons_of_mem _ hp, hgain⟩
    have ih := zaddCounts_new hrest
    simp only [zaddCounts, hstep, ih]

end ZSet

end LoonyRedis
