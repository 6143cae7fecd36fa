import Mathlib.Data.List.Nodup

/-!
# Sets of numbers as ranges

A range is the pair of its first and its last number. `Exact P rs` says that the ranges `rs`
are the maximal ranges of the numbers with the property `P`, in increasing order : they are
not empty, there is a gap between a range and the next, and a number is in one of them if and
only if it has the property. Then it is in one only (`Exact.countP`).
-/

namespace Ranges

/-- The range has the number `x`. -/
def Has (r : ℕ × ℕ) (x : ℕ) : Prop := r.1 ≤ x ∧ x ≤ r.2

/-- The ends are compared. -/
instance (r : ℕ × ℕ) (x : ℕ) : Decidable (Has r x) := inferInstanceAs (Decidable (_ ∧ _))

/-- The ranges are those of the numbers with the property `P`. -/
structure Exact (P : ℕ → Prop) (rs : List (ℕ × ℕ)) : Prop where
  le : ∀ r ∈ rs, r.1 ≤ r.2
  gap : rs.Pairwise fun r r' => r.2 + 1 < r'.1
  has : ∀ x, (∃ r ∈ rs, Has r x) ↔ P x

namespace Exact

variable {P Q : ℕ → Prop} {rs : List (ℕ × ℕ)} {a b : ℕ}

theorem nil (h : ∀ x, ¬P x) : Exact P [] :=
  ⟨by simp, List.Pairwise.nil, fun x => iff_of_false (by simp) (h x)⟩

theorem congr (h : Exact P rs) (hPQ : ∀ x, P x ↔ Q x) : Exact Q rs :=
  ⟨h.le, h.gap, fun x => (h.has x).trans (hPQ x)⟩

/-- A range before all others, with a gap behind it. -/
theorem cons (hab : a ≤ b) (h : Exact P rs) (hP : ∀ x, P x → b + 1 < x) :
    Exact (fun x => (a ≤ x ∧ x ≤ b) ∨ P x) ((a, b) :: rs) := by
  refine ⟨List.forall_mem_cons.mpr ⟨hab, h.le⟩, List.pairwise_cons.mpr ⟨fun r hr => ?_, h.gap⟩,
    fun x => ?_⟩
  · exact hP r.1 ((h.has r.1).mp ⟨r, hr, Nat.le_refl _, h.le r hr⟩)
  · rw [List.exists_mem_cons_iff, h.has]
    rfl

/-- No number is in two ranges. -/
theorem countP_le_one : ∀ {rs : List (ℕ × ℕ)}, (∀ r ∈ rs, r.1 ≤ r.2) →
    (rs.Pairwise fun r r' => r.2 + 1 < r'.1) → ∀ x, rs.countP (Has · x) ≤ 1
  | [], _, _, x => by simp
  | r :: rs, hle, hgap, x => by
    rw [List.forall_mem_cons] at hle
    rw [List.pairwise_cons] at hgap
    by_cases hr : Has r x
    · have hzero : rs.countP (Has · x) = 0 := by
        rw [List.countP_eq_zero]
        intro r' hr'
        have hlt := hgap.1 r' hr'
        rw [decide_eq_true_eq]
        intro hhas
        have hlast := hr.2
        have hfirst := hhas.1
        omega
      have hcons : (r :: rs).countP (Has · x) = rs.countP (Has · x) + 1 :=
        List.countP_cons_of_pos (by simpa using hr)
      omega
    · rw [List.countP_cons_of_neg (by simpa using hr)]
      exact countP_le_one hle.2 hgap.2 x

theorem countP [DecidablePred P] (h : Exact P rs) (x : ℕ) :
    rs.countP (Has · x) = if P x then 1 else 0 := by
  have hle := countP_le_one h.le h.gap x
  have hpos : 0 < rs.countP (Has · x) ↔ P x := by
    rw [List.countP_pos_iff, ← h.has x]
    simp only [decide_eq_true_eq]
  split
  · next hP =>
    have := hpos.mpr hP
    omega
  · next hP =>
    have := mt hpos.mp hP
    omega

end Exact

end Ranges
