import LoonyRedis.ExpiredKeys
import Mathlib.Data.Set.Card
import Mathlib.Data.Set.Lattice

/-!
# The set operations as set algebra

What the keys of a store hold as mathematical sets, `Store.setAt`, and what `SUNION`,
`SINTER` and `SDIFF` should make of them, `SetOp.result`, for any number of keys. The methods
read what is stored, whatever its expiry; in a store without expiries that is what is there.

`Store.set_algebra` is about the methods that answer and the ones that store their result.
The destination may be one of the keys : the operands are read before it is written.
-/

namespace LoonyRedis

open Std

/-- The set at `key`; it is empty if nothing is there. -/
def Store.setAt (s : Store) (key : String) : Set Bytes := {m | s.MemberAt key m}

/-- The combination of the set at `k` with those at `ks`. -/
def SetOp.result (s : Store) (k : String) (ks : List String) : SetOp → Set Bytes
  | union => ⋃ j ∈ k :: ks, s.setAt j
  | inter => ⋂ j ∈ k :: ks, s.setAt j
  | diff => s.setAt k \ ⋃ j ∈ ks, s.setAt j

theorem SetOp.mem_result {s : Store} {k : String} {ks : List String} {m : Bytes} (op : SetOp) :
    m ∈ op.result s k ks ↔ op.Selects s (k :: ks) m := by
  cases op with
  | union =>
    simp only [result, Selects, Set.mem_iUnion₂, Store.setAt, Set.mem_ofPred_eq, exists_prop]
  | inter =>
    simp only [result, Selects, Set.mem_iInter₂, Store.setAt, Set.mem_ofPred_eq, ne_eq,
      reduceCtorEq, not_false_eq_true, true_and]
  | diff =>
    simp only [result, Selects, Set.mem_sdiff, Set.mem_iUnion₂, Store.setAt, Set.mem_ofPred_eq,
      exists_prop, not_exists, not_and, List.cons.injEq]
    constructor
    · intro h
      exact ⟨k, ks, ⟨rfl, rfl⟩, h⟩
    · rintro ⟨_, _, ⟨rfl, rfl⟩, h⟩
      exact h

/-- The members of a set that is listed without repetition are as many as the list has. -/
theorem ncard_of_nodup {l : List Bytes} {S : Set Bytes} (hnd : l.Nodup)
    (hmem : ∀ m, m ∈ l ↔ m ∈ S) : S.ncard = l.length := by
  have hS : S = (l.toFinset : Set Bytes) := by
    ext m
    rw [Finset.mem_coe, List.mem_toFinset, hmem]
  rw [hS, Set.ncard_coe_finset, List.toFinset_card_of_nodup hnd]

namespace Store

variable {s : Store} {k : String} {ks : List String}

/-- The set that is built from the members of a combination. -/
theorem contains_sadd_combine {r : ExtTreeSet Bytes compare} (env : Env) (m : Bytes) :
    (RedisSet.new.sadd (env.memberOrder r.toList)).2.contains m = true ↔ m ∈ r := by
  rw [RedisSet.contains_sadd, (env.memberOrder_perm _).mem_iff, ExtTreeSet.mem_toList]
  simp

/-- On keys of which one holds another type the methods fail and change nothing. Otherwise
they answer with the combination of the sets, each member once, or store it at `dst` without
expiry, answer with its size, and leave the other keys as they were. -/
theorem set_algebra (op : SetOp) (env : Env) (dst k : String) (ks : List String) (s : Store) :
    ((∃ j ∈ k :: ks, s.NotSet j) ∧ s.combine op.fn env (k :: ks) = .error wrongType ∧
        combineStore op.fn env dst (k :: ks) s = (.error wrongType, s)) ∨
      (∀ j ∈ k :: ks, ¬s.NotSet j) ∧
        (∃ l, s.combine op.fn env (k :: ks) = .ok l ∧ l.Nodup ∧ ∀ m, m ∈ l ↔ m ∈ op.result s k ks) ∧
        (combineStore op.fn env dst (k :: ks) s).1 = .ok (op.result s k ks).ncard ∧
        (∃ t, (combineStore op.fn env dst (k :: ks) s).2[dst]? = some ⟨.set t, none⟩ ∧
          ∀ m, t.contains m = true ↔ m ∈ op.result s k ks) ∧
        ∀ j ≠ dst, (combineStore op.fn env dst (k :: ks) s).2[j]? = s[j]? := by
  rcases combine_eq op env (k :: ks) s with ⟨hnot, herr⟩ | ⟨hall, r, hr, hmem⟩
  · refine Or.inl ⟨hnot, herr, ?_⟩
    rw [combineStore, herr]
  · have hlist (m : Bytes) : m ∈ env.memberOrder r.toList ↔ m ∈ op.result s k ks := by
      rw [(env.memberOrder_perm _).mem_iff, ExtTreeSet.mem_toList, hmem, op.mem_result]
    have hnodup : (env.memberOrder r.toList).Nodup :=
      (env.memberOrder_perm _).nodup_iff.mpr FinMap.nodup_toList
    refine Or.inr ⟨hall, ⟨_, hr, hnodup, hlist⟩, ?_⟩
    simp only [combineStore, hr, ncard_of_nodup hnodup hlist, true_and]
    refine ⟨⟨_, FinMap.getElem?_insert_self, fun m => ?_⟩, fun j hj => ?_⟩
    · rw [contains_sadd_combine, hmem, op.mem_result]
    · rw [FinMap.getElem?_insert, if_neg hj.symm]

end Store

end LoonyRedis
