import Mathlib.Algebra.BigOperators.Group.List.Basic
import Mathlib.Data.List.Nodup

/-!
# Tables of counters

A table of values under keys, as the list of its entries in some order. `update` changes the
value of one key, which is a given value at first : an entry is made where there is none.

No key gets a second entry (`nodup_update`), the other keys keep their values
(`get_update`), and what the entries weigh together grows by what the change adds to one
value (`sum_update`).
-/

namespace Tally

variable {κ ν M : Type*} [DecidableEq κ] {f : ν → ν} {first : ν} {k : κ}

/-- Change the value of `k`, which is `first` if there is none. -/
def update (f : ν → ν) (first : ν) (k : κ) : List (κ × ν) → List (κ × ν)
  | [] => [(k, f first)]
  | e :: l => if e.1 = k then (k, f e.2) :: l else e :: update f first k l

/-- The value of `k`. -/
def get (first : ν) (k : κ) (l : List (κ × ν)) : ν := (l.lookup k).getD first

theorem get_cons (e : κ × ν) (l : List (κ × ν)) (j : κ) :
    get first j (e :: l) = if e.1 = j then e.2 else get first j l := by
  rw [get, List.lookup_cons]
  split
  · next h =>
    rw [if_pos (beq_iff_eq.mp h).symm]
    rfl
  · next h =>
    rw [beq_eq_false_iff_ne] at h
    rw [if_neg fun heq => h heq.symm, get]

theorem get_update (l : List (κ × ν)) (j : κ) :
    get first j (update f first k l) = if k = j then f (get first j l) else get first j l := by
  induction l with
  | nil =>
    rw [update, get_cons]
    rfl
  | cons e l ih =>
    rw [update]
    split
    · next h =>
      rw [get_cons, get_cons, h]
      split <;> rfl
    · next h =>
      rw [get_cons, ih, get_cons]
      split
      · next hj => rw [if_neg fun hk => h (hj.trans hk.symm)]
      · rfl

theorem mem_keys_update (l : List (κ × ν)) (j : κ) :
    j ∈ (update f first k l).map Prod.fst ↔ j = k ∨ j ∈ l.map Prod.fst := by
  induction l with
  | nil => simp [update]
  | cons e l ih =>
    rw [update]
    split
    · next h => simp [h]
    · rw [List.map_cons, List.map_cons, List.mem_cons, List.mem_cons, ih]
      exact or_left_comm

theorem nodup_update {l : List (κ × ν)} (h : (l.map Prod.fst).Nodup) :
    ((update f first k l).map Prod.fst).Nodup := by
  induction l with
  | nil => simp [update]
  | cons e l ih =>
    rw [List.map_cons, List.nodup_cons] at h
    rw [update]
    split
    · next he =>
      subst he
      exact List.nodup_cons.mpr h
    · next he =>
      rw [List.map_cons, List.nodup_cons, mem_keys_update]
      exact ⟨not_or.mpr ⟨he, h.1⟩, ih h.2⟩

/-- The change adds `c` to the weight of a value, and the value at first weighs nothing. -/
theorem sum_update [AddCommMonoid M] {w : ν → M} {c : M} (hf : ∀ v, w (f v) = w v + c)
    (hfirst : w first = 0) (l : List (κ × ν)) :
    ((update f first k l).map fun e => w e.2).sum = (l.map fun e => w e.2).sum + c := by
  induction l with
  | nil => simp [update, hf, hfirst]
  | cons e l ih =>
    rw [update]
    split
    · rw [List.map_cons, List.map_cons, List.sum_cons, List.sum_cons, hf, add_right_comm]
    · rw [List.map_cons, List.map_cons, List.sum_cons, List.sum_cons, ih, add_assoc]

end Tally
