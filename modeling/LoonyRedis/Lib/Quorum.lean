import Mathlib.Data.Finset.Card

/-!
# Majorities of a list of members

A quorum is a duplicate-free list of members longer than half of them. Two quorums of
the same members meet (`IsQuorum.meet`).
-/

namespace Quorum

variable {α : Type*}

/-- `Q` is a majority of `members`. -/
structure IsQuorum (members Q : List α) : Prop where
  nodup : Q.Nodup
  subset : ∀ a ∈ Q, a ∈ members
  majority : members.length / 2 + 1 ≤ Q.length

/-- Two duplicate-free lists of members too long to be disjoint meet. -/
theorem exists_mem_of_length_lt {members Q R : List α} (hQ : Q.Nodup) (hR : R.Nodup)
    (hQm : ∀ a ∈ Q, a ∈ members) (hRm : ∀ a ∈ R, a ∈ members)
    (hlen : members.length < Q.length + R.length) : ∃ a, a ∈ Q ∧ a ∈ R := by
  by_contra hno
  have hdisj : Q.Disjoint R := fun a ha hb => hno ⟨a, ha, hb⟩
  have hsub : (Q ++ R) ⊆ members := by
    intro a ha
    rcases List.mem_append.mp ha with h | h
    · exact hQm a h
    · exact hRm a h
  have hle := ((hQ.append hR hdisj).subperm hsub).length_le
  rw [List.length_append] at hle
  omega

theorem IsQuorum.meet {members Q R : List α} (hQ : IsQuorum members Q)
    (hR : IsQuorum members R) : ∃ a, a ∈ Q ∧ a ∈ R := by
  refine exists_mem_of_length_lt hQ.nodup hR.nodup hQ.subset hR.subset ?_
  have := hQ.majority
  have := hR.majority
  omega

end Quorum
