import Mathlib.Algebra.GroupWithZero.Nat
import Mathlib.Data.List.Basic

/-!
# Journals

A system writes some records for each of its steps, from which the steps are done again after
a crash. An `Entry` is a step that was taken, with its records and the state it left. The
journal `Describes` the entries if the records of each lead from the state before it to the
state it left, up to a relation that need not be equality.

A crash cuts the journal. `complete` are the records that are whole in what is left, and
`cut` finds the entries they belong to : the first ones, and a beginning of one more. Replayed
they give what the first entries left, changed by that beginning (`replay_complete`).
-/

namespace Journal

/-- A step that was taken. -/
structure Entry (σ ρ : Type*) where
  log : List ρ
  state : σ

variable {σ ρ : Type*}

/-- The records of the entries. -/
def records (es : List (Entry σ ρ)) : List ρ := es.flatMap Entry.log

/-- What the entries left; `s` was before them. -/
def final : σ → List (Entry σ ρ) → σ
  | s, [] => s
  | _, e :: es => final e.state es

/-- The records of each entry lead to what it left. -/
def Describes (apply : σ → ρ → σ) (same : σ → σ → Prop) : σ → List (Entry σ ρ) → Prop
  | _, [] => True
  | s, e :: es => same (e.log.foldl apply s) e.state ∧ Describes apply same e.state es

/-- The space that records take. -/
def space (size : ρ → ℕ) (rs : List ρ) : ℕ := (rs.map size).sum

/-- The records that are whole in the first `n` units of a journal. -/
def complete (size : ρ → ℕ) : List ρ → ℕ → List ρ
  | [], _ => []
  | r :: rs, n => if size r ≤ n then r :: complete size rs (n - size r) else []

/-- The entries whose records are all whole, and the whole records of the next one. -/
def cut (size : ρ → ℕ) : List (Entry σ ρ) → ℕ → List (Entry σ ρ) × List ρ
  | [], _ => ([], [])
  | e :: es, n =>
    if space size e.log ≤ n then
      let rest := cut size es (n - space size e.log)
      (e :: rest.1, rest.2)
    else ([], complete size e.log n)

section Entries

variable {apply : σ → ρ → σ} {same : σ → σ → Prop} {s t : σ} {es es' : List (Entry σ ρ)}

@[simp]
theorem records_append : records (es ++ es') = records es ++ records es' := List.flatMap_append

@[simp]
theorem records_singleton (e : Entry σ ρ) : records [e] = e.log := by
  rw [records, List.flatMap_singleton]

@[simp]
theorem final_append_singleton (s : σ) : ∀ (es : List (Entry σ ρ)) (e : Entry σ ρ),
    final s (es ++ [e]) = e.state
  | [], _ => rfl
  | e' :: es, e => final_append_singleton e'.state es e

theorem describes_append : ∀ {s : σ} {es : List (Entry σ ρ)},
    Describes apply same s (es ++ es') ↔
      Describes apply same s es ∧ Describes apply same (final s es) es'
  | s, [] => by rw [List.nil_append, Describes, final, true_and]
  | s, e :: es => by
    rw [List.cons_append, Describes, Describes, describes_append, final, and_assoc]

/-- One more step. -/
theorem describes_concat {e : Entry σ ρ} : Describes apply same s (es ++ [e]) ↔
    Describes apply same s es ∧ same (e.log.foldl apply (final s es)) e.state := by
  rw [describes_append, Describes, Describes, and_true]

theorem foldl_same {rs : List ρ}
    (hcongr : ∀ r ∈ rs, ∀ s t, same s t → same (apply s r) (apply t r)) (h : same s t) :
    same (rs.foldl apply s) (rs.foldl apply t) := by
  induction rs generalizing s t with
  | nil => exact h
  | cons r rs ih =>
    rw [List.forall_mem_cons] at hcongr
    exact ih hcongr.2 (hcongr.1 s t h)

/-- The records of all entries lead to what the last one left. -/
theorem replay_records (hdescribes : Describes apply same s es)
    (htrans : ∀ s t u, same s t → same t u → same s u)
    (hcongr : ∀ r ∈ records es, ∀ s t, same s t → same (apply s r) (apply t r)) (h : same t s) :
    same ((records es).foldl apply t) (final s es) := by
  induction es generalizing s t with
  | nil => exact h
  | cons e es ih =>
    have hcons : records (e :: es) = e.log ++ records es := List.flatMap_cons
    rw [hcons, List.forall_mem_append] at hcongr
    rw [hcons, List.foldl_append]
    exact ih hdescribes.2 hcongr.2 (htrans _ _ _ (foldl_same hcongr.1 h) hdescribes.1)

end Entries

section Cuts

variable {size : ρ → ℕ}

@[simp]
theorem space_cons (r : ρ) (rs : List ρ) : space size (r :: rs) = size r + space size rs := by
  rw [space, space, List.map_cons, List.sum_cons]

@[simp]
theorem space_append (rs qs : List ρ) :
    space size (rs ++ qs) = space size rs + space size qs := by
  rw [space, space, space, List.map_append, List.sum_append]

theorem complete_append_of_le {rs qs : List ρ} {n : ℕ} (hle : space size rs ≤ n) :
    complete size (rs ++ qs) n = rs ++ complete size qs (n - space size rs) := by
  induction rs generalizing n with
  | nil => rfl
  | cons r rs ih =>
    rw [space_cons] at hle
    rw [List.cons_append, complete, if_pos (by omega), ih (by omega), space_cons, Nat.sub_sub]
    rfl

theorem complete_append_of_lt {rs qs : List ρ} {n : ℕ} (hlt : n < space size rs) :
    complete size (rs ++ qs) n = complete size rs n := by
  induction rs generalizing n with
  | nil => exact absurd hlt (Nat.not_lt_zero n)
  | cons r rs ih =>
    rw [space_cons] at hlt
    rw [List.cons_append, complete, complete]
    split
    · rw [ih (by omega)]
    · rfl

theorem complete_initial (size : ρ → ℕ) (rs : List ρ) (n : ℕ) : complete size rs n <+: rs := by
  induction rs generalizing n with
  | nil => exact List.prefix_rfl
  | cons r rs ih =>
    rw [complete]
    split
    · exact (List.prefix_cons_inj r).mpr (ih _)
    · exact List.nil_prefix

theorem space_complete_le (size : ρ → ℕ) (rs : List ρ) (n : ℕ) :
    space size (complete size rs n) ≤ n := by
  induction rs generalizing n with
  | nil => exact Nat.zero_le n
  | cons r rs ih =>
    rw [complete]
    split
    · have hrest := ih (n - size r)
      rw [space_cons]
      omega
    · exact Nat.zero_le n

theorem records_cut (size : ρ → ℕ) (es : List (Entry σ ρ)) (n : ℕ) :
    complete size (records es) n = records (cut size es n).1 ++ (cut size es n).2 := by
  induction es generalizing n with
  | nil => rfl
  | cons e es ih =>
    have hcons (l : List (Entry σ ρ)) : records (e :: l) = e.log ++ records l := List.flatMap_cons
    rw [hcons, cut]
    split
    · next hle => rw [complete_append_of_le hle, ih, hcons, List.append_assoc]
    · next hlt => exact complete_append_of_lt (Nat.lt_of_not_le hlt)

/-- Nothing is cut off. -/
theorem cut_of_le {es : List (Entry σ ρ)} {n : ℕ} (hle : space size (records es) ≤ n) :
    cut size es n = (es, []) := by
  induction es generalizing n with
  | nil => rfl
  | cons e es ih =>
    have hcons : records (e :: es) = e.log ++ records es := List.flatMap_cons
    rw [hcons, space_append] at hle
    rw [cut, if_pos (by omega), ih (by omega)]

/-- The entries that are kept are the first ones. Of the next one, whose records do not fit
any more, a beginning is kept. -/
theorem cut_spec (size : ρ → ℕ) (es : List (Entry σ ρ)) (n : ℕ) :
    ∃ later, es = (cut size es n).1 ++ later ∧
      (later = [] ∧ (cut size es n).2 = [] ∨ ∃ e rest, later = e :: rest ∧
        (cut size es n).2 <+: e.log ∧ (cut size es n).2 ≠ e.log ∧
        n < space size (records (cut size es n).1 ++ e.log)) := by
  induction es generalizing n with
  | nil => exact ⟨[], rfl, .inl ⟨rfl, rfl⟩⟩
  | cons e es ih =>
    rw [cut]
    split
    · next hle =>
      obtain ⟨later, heq, hlater⟩ := ih (n - space size e.log)
      refine ⟨later, congrArg (List.cons e) heq, hlater.imp_right ?_⟩
      rintro ⟨e', rest, hcons, hpre, hne, hlt⟩
      refine ⟨e', rest, hcons, hpre, hne, ?_⟩
      rw [space_append] at hlt
      have hrecords (l : List (Entry σ ρ)) : records (e :: l) = e.log ++ records l :=
        List.flatMap_cons
      rw [hrecords, space_append, space_append]
      omega
    · next hlt =>
      refine ⟨e :: es, rfl, .inr ⟨e, es, rfl, complete_initial size _ _, fun heq => ?_, ?_⟩⟩
      · exact hlt (heq ▸ space_complete_le size e.log n)
      · exact Nat.lt_of_not_le hlt

/-- What is left of a journal leads to the state that the kept entries left, changed by the
kept records of the next one. -/
theorem replay_complete {apply : σ → ρ → σ} {same : σ → σ → Prop} {s t : σ}
    {es : List (Entry σ ρ)} (hdescribes : Describes apply same s es)
    (htrans : ∀ s t u, same s t → same t u → same s u)
    (hcongr : ∀ r ∈ records es, ∀ s t, same s t → same (apply s r) (apply t r)) (h : same t s)
    (n : ℕ) :
    same ((complete size (records es) n).foldl apply t)
      ((cut size es n).2.foldl apply (final s (cut size es n).1)) := by
  have hkept : ∀ r ∈ records (cut size es n).1 ++ (cut size es n).2, ∀ s t,
      same s t → same (apply s r) (apply t r) := by
    rw [← records_cut]
    exact fun r hr => hcongr r ((complete_initial size _ n).subset hr)
  rw [List.forall_mem_append] at hkept
  obtain ⟨later, heq, -⟩ := cut_spec size es n
  rw [heq, describes_append] at hdescribes
  rw [records_cut, List.foldl_append]
  exact foldl_same hkept.2 (replay_records hdescribes.1 htrans hkept.1 h)

end Cuts

end Journal
