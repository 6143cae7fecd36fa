import LoonyRedis.Lib.Checked
import Mathlib.Data.List.Infix

/-!
# Splicing a batch of entries into a log

A follower receives the tail of another log and merges it into its own : it cuts its log
at the first entry whose key differs from the received one (`truncateConflicts`), then
appends what it does not have (`pushMissing`). Entries are of any type, with a key that
the comparison reads.

Two logs that agree up to every position where their keys agree (`Matching`) merge to
one of them : `splice_drop` says that the follower keeps its log if the sender's is a
prefix of it, and has the sender's log otherwise.
-/

namespace Splice

variable {α κ : Type*} [DecidableEq κ] (key : α → κ)

/-- Cut `log` at the first position, from `i` on, where the key of the entry of `es`
there differs. -/
def truncateConflicts (log : List α) (i : ℕ) : List α → List α
  | [] => log
  | e :: es =>
    match log[i]? with
    | some old => if key old ≠ key e then log.take i else truncateConflicts log (i + 1) es
    | none => truncateConflicts log (i + 1) es

/-- Append the entries of `es`, which belong at `i` and after, that lie past the end of
`log`. -/
def pushMissing (log : List α) (i : ℕ) : List α → List α
  | [] => log
  | e :: es => pushMissing (if log.length ≤ i then log ++ [e] else log) (i + 1) es

/-- The merge : cut, then append. -/
def splice (log : List α) (i : ℕ) (es : List α) : List α :=
  pushMissing (truncateConflicts key log i es) i es

/-- Where the keys agree, the logs agree up to there. -/
def Matching (l m : List α) : Prop :=
  ∀ i a b, l[i]? = some a → m[i]? = some b → key a = key b → l.take (i + 1) = m.take (i + 1)

theorem truncateConflicts_of_length_le (log : List α) :
    ∀ (es : List α) (i : ℕ), log.length ≤ i → truncateConflicts key log i es = log
  | [], _, _ => rfl
  | e :: es, i, hi => by
    rw [truncateConflicts, List.getElem?_eq_none hi]
    exact truncateConflicts_of_length_le log es (i + 1) (by omega)

/-- The cut leaves everything before `i`. -/
theorem le_length_truncateConflicts (log : List α) :
    ∀ (es : List α) (i : ℕ), i ≤ log.length → i ≤ (truncateConflicts key log i es).length
  | [], _, hi => hi
  | e :: es, i, hi => by
    rw [truncateConflicts]
    split
    · next old hold =>
      have hlt : i < log.length := (List.getElem?_eq_some_iff.mp hold).1
      split
      · rw [List.length_take]
        omega
      · have := le_length_truncateConflicts log es (i + 1) hlt
        omega
    · next hnone =>
      rw [truncateConflicts_of_length_le key log es (i + 1)
        (by have := List.getElem?_eq_none_iff.mp hnone; omega)]
      exact hi

theorem pushMissing_take (m : List α) :
    ∀ (k i : ℕ), i + k = m.length → pushMissing (m.take i) i (m.drop i) = m
  | 0, i, h => by
    have hi : m.length ≤ i := by omega
    rw [List.drop_of_length_le hi, List.take_of_length_le hi, pushMissing]
  | k + 1, i, h => by
    have hi : i < m.length := by omega
    rw [List.drop_eq_getElem_cons hi, pushMissing, if_pos (List.length_take_le i m),
      List.take_append_getElem hi]
    exact pushMissing_take m k (i + 1) (by omega)

variable {key} in
/-- The merge of the sender's tail is the sender's log, unless the follower's log
already extends it. -/
theorem splice_drop {l m : List α} (hmatch : Matching key l m) :
    ∀ (k i : ℕ), i + k = m.length → i ≤ l.length → l.take i = m.take i →
      (m <+: l ∧ splice key l i (m.drop i) = l) ∨ (¬ m <+: l ∧ splice key l i (m.drop i) = m)
  | 0, i, hk, hi, htake => by
    have hle : m.length ≤ i := by omega
    rw [List.drop_of_length_le hle]
    rw [List.take_of_length_le hle] at htake
    exact Or.inl ⟨htake ▸ List.take_prefix i l, rfl⟩
  | k + 1, i, hk, hi, htake => by
    have him : i < m.length := by omega
    rw [List.drop_eq_getElem_cons him, splice, truncateConflicts]
    cases hl : l[i]? with
    | none =>
      have hlen : l.length = i := le_antisymm (List.getElem?_eq_none_iff.mp hl) hi
      have hlm : l = m.take i := by rw [← htake, List.take_of_length_le hlen.le]
      refine Or.inr ⟨fun hpre => by have := hpre.length_le; omega, ?_⟩
      simp only
      rw [truncateConflicts_of_length_le key l _ _ (by omega), ← List.drop_eq_getElem_cons him, hlm]
      exact pushMissing_take m (k + 1) i hk
    | some a =>
      have hil : i < l.length := (List.getElem?_eq_some_iff.mp hl).1
      simp only
      split
      · next hkey =>
        refine Or.inr ⟨fun hpre => hkey ?_, ?_⟩
        · rw [List.getElem?_eq_getElem hil, ← hpre.getElem him] at hl
          rw [Option.some.inj hl]
        · rw [← List.drop_eq_getElem_cons him, htake]
          exact pushMissing_take m (k + 1) i hk
      · next hkey =>
        have hstep := hmatch i a m[i] hl (List.getElem?_eq_getElem him) (not_not.mp hkey)
        have hlong := le_length_truncateConflicts key l (m.drop (i + 1)) (i + 1) hil
        rw [pushMissing, if_neg (by omega)]
        exact splice_drop hmatch k (i + 1) (by omega) hil hstep

theorem getElem?_pushMissing (j : ℕ) :
    ∀ (es log : List α) (i : ℕ), j < log.length → (pushMissing log i es)[j]? = log[j]?
  | [], _, _, _ => rfl
  | e :: es, log, i, hj => by
    rw [pushMissing]
    split
    · rw [getElem?_pushMissing j es _ _ (by simp; omega), List.getElem?_append_left hj]
    · exact getElem?_pushMissing j es _ _ hj

/-- A position is kept by the merge when no key up to it differs. -/
theorem getElem?_splice {log : List α} {j : ℕ} (hj : j < log.length) (es : List α) (i : ℕ)
    (hkeep : ∀ k e old, es[k]? = some e → i + k ≤ j → log[i + k]? = some old →
      key old = key e) :
    (splice key log i es)[j]? = log[j]? := by
  have hcut : ∀ (es : List α) (i : ℕ), (∀ k e old, es[k]? = some e → i + k ≤ j →
      log[i + k]? = some old → key old = key e) →
        j < (truncateConflicts key log i es).length ∧
          (truncateConflicts key log i es)[j]? = log[j]? := by
    intro es
    induction es with
    | nil => exact fun i _ => ⟨hj, rfl⟩
    | cons e es ih =>
      intro i hkeep
      have htail : ∀ k e old, es[k]? = some e → i + 1 + k ≤ j → log[i + 1 + k]? = some old →
          key old = key e := by
        intro k x old hx hk hold
        exact hkeep (k + 1) x old hx (by omega) (by rwa [Nat.add_assoc, Nat.add_comm 1] at hold)
      rw [truncateConflicts]
      split
      · next old hold =>
        split
        · next hne =>
          have hij : j < i := by
            by_contra hle
            exact hne (hkeep 0 e old rfl (by omega) hold)
          rw [List.length_take, List.getElem?_take_of_lt hij]
          exact ⟨by omega, rfl⟩
        · exact ih (i + 1) htail
      · exact ih (i + 1) htail
  obtain ⟨hlt, hget⟩ := hcut es i hkeep
  rw [splice, getElem?_pushMissing j es _ _ hlt, hget]

theorem truncateConflicts_isPrefix (log : List α) :
    ∀ (es : List α) (i : ℕ), truncateConflicts key log i es <+: log
  | [], _ => List.prefix_refl log
  | e :: es, i => by
    rw [truncateConflicts]
    split
    · split
      · exact List.take_prefix i log
      · exact truncateConflicts_isPrefix log es (i + 1)
    · exact truncateConflicts_isPrefix log es (i + 1)

theorem of_getElem?_pushMissing {j : ℕ} {y : α} :
    ∀ (es log : List α) (i : ℕ), i ≤ log.length → (pushMissing log i es)[j]? = some y →
      log[j]? = some y ∨ ∃ k, j = i + k ∧ es[k]? = some y
  | [], _, _, _, h => .inl h
  | e :: es, log, i, hi, h => by
    rw [pushMissing] at h
    split at h
    · next hle =>
      obtain rfl : log.length = i := le_antisymm hle hi
      rcases of_getElem?_pushMissing es _ _ (by simp) h with hy | ⟨k, rfl, hk⟩
      · rw [List.getElem?_append] at hy
        split at hy
        · exact .inl hy
        · next hj =>
          have hzero : j - log.length = 0 := by
            have hlt := (List.getElem?_eq_some_iff.mp hy).1
            rw [List.length_singleton] at hlt
            omega
          rw [hzero] at hy
          exact .inr ⟨0, by omega, hy⟩
      · exact .inr ⟨k + 1, by omega, hk⟩
    · next hlt =>
      rcases of_getElem?_pushMissing es log (i + 1) (Nat.not_le.mp hlt) h with hy | ⟨k, rfl, hk⟩
      · exact .inl hy
      · exact .inr ⟨k + 1, by omega, hk⟩

/-- What the merge has at a position is from the log or from the batch. -/
theorem of_getElem?_splice {log es : List α} {i j : ℕ} {y : α} (hi : i ≤ log.length)
    (h : (splice key log i es)[j]? = some y) :
    log[j]? = some y ∨ ∃ k, j = i + k ∧ es[k]? = some y := by
  rcases of_getElem?_pushMissing es _ i (le_length_truncateConflicts key log es i hi) h with hy | hy
  · have hpre := truncateConflicts_isPrefix key log es i
    obtain ⟨hlt, rfl⟩ := List.getElem?_eq_some_iff.mp hy
    exact .inl (List.getElem?_eq_some_iff.mpr
      ⟨hlt.trans_le hpre.length_le, (hpre.getElem hlt).symm⟩)
  · exact .inr hy

/-! ## The cut, with its accesses checked -/

section Checked

variable {β ι : Type} [DecidableEq ι] (tag : β → ι)

/-- The cut as a loop that indexes the log and truncates it, each of which is checked. -/
def truncateChecked (log : List β) (i : ℕ) : List β → Option (List β)
  | [] => some log
  | e :: es =>
    if i < log.length then do
      let old ← log[i]?
      if tag old ≠ tag e then Checked.sliceTo log i else truncateChecked log (i + 1) es
    else truncateChecked log (i + 1) es

/-- Each access is behind a comparison with the length of the log. -/
theorem truncateChecked_eq (log : List β) : ∀ (es : List β) (i : ℕ),
    truncateChecked tag log i es = some (truncateConflicts tag log i es)
  | [], _ => rfl
  | e :: es, i => by
    have ih := truncateChecked_eq log es (i + 1)
    rw [truncateChecked, truncateConflicts]
    split
    · next hi =>
      rw [List.getElem?_eq_getElem hi]
      simp only [Option.bind_eq_bind, Option.bind_some]
      split
      · exact Checked.sliceTo_eq hi.le
      · exact ih
    · next hi =>
      rw [List.getElem?_eq_none (Nat.not_lt.mp hi)]
      exact ih

end Checked

end Splice
