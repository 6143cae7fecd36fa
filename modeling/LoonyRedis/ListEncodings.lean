import LoonyRedis.Contents
import Mathlib.Logic.Function.Iterate

/-!
# The encodings of a list are transparent

The source has each operation on a list twice, once for the `Vec` of a small list and once
for the `VecDeque` of a large one, and moves from the first to the second in the middle of
an operation. `ListCode` has the operations in this form, with the places where the source
would panic as `none` : an insertion past the end, a slice that is out of range.

`ListOp.exec` is an operation of the source, `ListOp.apply` the operation of `RedisList`
that the commands use, and `ListOp.onSeq` what it should do to a plain sequence. The first
never panics and is the second (`ListOp.exec_eq`), and the second does to the elements what
the third says (`ListOp.apply_onSeq`).
-/

namespace LoonyRedis

/-! ## The code for each encoding -/

namespace ListCode

/-- `Vec::insert` and `VecDeque::insert`, which panic past the end. -/
def insertChecked (v : List Bytes) (index : ℕ) (val : Bytes) : Option (List Bytes) :=
  if index ≤ v.length then some (v.insertIdx index val) else none

/-- `v[start..stop]` and `d.range(start..stop)`, which panic out of range. -/
def sliceChecked (v : List Bytes) (start stop : ℕ) : Option (List Bytes) :=
  if start ≤ stop ∧ stop ≤ v.length then some ((v.drop start).take (stop - start)) else none

/-- Add an element at the head, inserted at 0 in the small encoding. -/
def pushFront (l : RedisList) (val : Bytes) : Option RedisList :=
  match l.fit val with
  | .small v => (insertChecked v 0 val).map .small
  | .large d => some (.large (val :: d))

/-- Add an element at the tail. -/
def pushBack (l : RedisList) (val : Bytes) : RedisList :=
  match l.fit val with
  | .small v => .small (v ++ [val])
  | .large d => .large (d ++ [val])

/-- Take the element at the head, removed from an array that is not empty. -/
def popFront : RedisList → Option Bytes × RedisList
  | .small [] => (none, .small [])
  | .small (b :: v) => (some b, .small v)
  | .large d => (d.head?, .large d.tail)

/-- Take the element at the tail. -/
def popBack : RedisList → Option Bytes × RedisList
  | .small v => (v.getLast?, .small v.dropLast)
  | .large d => (d.getLast?, .large d.dropLast)

/-- Take up to `n` elements from the head. -/
def popFrontN (l : RedisList) (n : ℕ) : List Bytes × RedisList := RedisList.popN popFront n l

/-- Take up to `n` elements from the tail. -/
def popBackN (l : RedisList) (n : ℕ) : List Bytes × RedisList := RedisList.popN popBack n l

/-- The element at an index. -/
def get : RedisList → ℕ → Option Bytes
  | .small v, index => v[index]?
  | .large d, index => d[index]?

/-- Overwrite the element at an index. -/
def setIndex : RedisList → ℕ → Bytes → Bool × RedisList
  | .small v, index, val =>
    if index < v.length then (true, .small (v.set index val)) else (false, .small v)
  | .large d, index, val =>
    if index < d.length then (true, .large (d.set index val)) else (false, .large d)

/-- The elements from `start` up to `stop`, a checked slice. -/
def range (l : RedisList) (start stop : ℕ) : Option (List Bytes) :=
  let stop := min stop l.len
  if stop ≤ start then some []
  else match l with
    | .small v => sliceChecked v start stop
    | .large d => sliceChecked d start stop

/-- The first index of `val`. -/
def position (val : Bytes) : RedisList → Option ℕ
  | .small v => v.findIdx? (· = val)
  | .large d => d.findIdx? (· = val)

/-- The length of the list that an insertion gives, with the list. -/
def counted (l : RedisList) : ℤ × RedisList := (l.len, l)

/-- Insert `val` at the index of the first `pivot`. -/
def insertBefore (l : RedisList) (pivot val : Bytes) : Option (ℤ × RedisList) :=
  match position pivot l with
  | none => some (-1, l)
  | some pos => match l.fit val with
    | .small v => (insertChecked v pos val).map fun v => counted (.small v)
    | .large d => (insertChecked d pos val).map fun d => counted (.large d)

/-- Insert `val` behind the first `pivot`, at the end if that is the last element. -/
def insertAfter (l : RedisList) (pivot val : Bytes) : Option (ℤ × RedisList) :=
  match position pivot l with
  | none => some (-1, l)
  | some pos =>
    let insertAt := pos + 1
    match l.fit val with
    | .small v =>
      if v.length ≤ insertAt then some (counted (.small (v ++ [val])))
      else (insertChecked v insertAt val).map fun v => counted (.small v)
    | .large d => (insertChecked d insertAt val).map fun d => counted (.large d)

/-- A filter that drops `val` while fewer than `limit` have been dropped. -/
def filterCounting (val : Bytes) (limit : ℕ) : ℕ → List Bytes → ℕ × List Bytes
  | removed, [] => (removed, [])
  | removed, b :: items =>
    if removed < limit ∧ b = val then filterCounting val limit (removed + 1) items
    else
      ((filterCounting val limit removed items).1, b :: (filterCounting val limit removed items).2)

/-- A filter that drops `val`, counting what it drops. -/
def filterAll (val : Bytes) : ℕ → List Bytes → ℕ × List Bytes
  | removed, [] => (removed, [])
  | removed, b :: items =>
    if b = val then filterAll val (removed + 1) items
    else ((filterAll val removed items).1, b :: (filterAll val removed items).2)

/-- Filter the elements from the head, or those of the reversed list. -/
def lrem (l : RedisList) (count : ℤ) (val : Bytes) : ℕ × RedisList :=
  let items := l.toVec
  if 0 < count then
    let limit := Text.asUsize count
    ((filterCounting val limit 0 items).1, .small (filterCounting val limit 0 items).2)
  else if count < 0 then
    let limit := Text.asUsize (Text.wrap (-count))
    let reversed := filterCounting val limit 0 items.reverse
    (reversed.1, .small reversed.2.reverse)
  else ((filterAll val 0 items).1, .small (filterAll val 0 items).2)

end ListCode

/-! ## Operations and what they return -/

/-- A count of `LREM` : any `i64` but the least. -/
abbrev RemCount := { n : ℤ // Text.i64Min < n ∧ n ≤ Text.i64Max }

/-- The operations on one list. -/
inductive ListOp where
  | pushFront (val : Bytes)
  | pushBack (val : Bytes)
  | popFront
  | popBack
  | popFrontN (n : ℕ)
  | popBackN (n : ℕ)
  | setIndex (index : ℕ) (val : Bytes)
  | insertBefore (pivot val : Bytes)
  | insertAfter (pivot val : Bytes)
  | lrem (count : RemCount) (val : Bytes)
  | range (start stop : ℕ)
  | get (index : ℕ)

/-- What an operation returns. -/
inductive ListReturn where
  | unit
  | element (o : Option Bytes)
  | elements (vs : List Bytes)
  | flag (b : Bool)
  | length (n : ℤ)
  | removed (n : ℕ)
  deriving DecidableEq

namespace ListOp

/-- The operation as the source computes it. -/
def exec (l : RedisList) : ListOp → Option (ListReturn × RedisList)
  | pushFront val => (ListCode.pushFront l val).map (Prod.mk .unit)
  | pushBack val => some (.unit, ListCode.pushBack l val)
  | popFront => some (Prod.map .element id (ListCode.popFront l))
  | popBack => some (Prod.map .element id (ListCode.popBack l))
  | popFrontN n => some (Prod.map .elements id (ListCode.popFrontN l n))
  | popBackN n => some (Prod.map .elements id (ListCode.popBackN l n))
  | setIndex index val => some (Prod.map .flag id (ListCode.setIndex l index val))
  | insertBefore pivot val =>
    (ListCode.insertBefore l pivot val).map (Prod.map .length id)
  | insertAfter pivot val =>
    (ListCode.insertAfter l pivot val).map (Prod.map .length id)
  | lrem count val => some (Prod.map .removed id (ListCode.lrem l count val))
  | range start stop => (ListCode.range l start stop).map fun vs => (.elements vs, l)
  | get index => some (.element (ListCode.get l index), l)

/-- The operation of the model that the commands use. -/
def apply (l : RedisList) : ListOp → ListReturn × RedisList
  | pushFront val => (.unit, l.pushFront val)
  | pushBack val => (.unit, l.pushBack val)
  | popFront => Prod.map .element id l.popFront
  | popBack => Prod.map .element id l.popBack
  | popFrontN n => Prod.map .elements id (l.popFrontN n)
  | popBackN n => Prod.map .elements id (l.popBackN n)
  | setIndex index val => Prod.map .flag id (l.setIndex index val)
  | insertBefore pivot val => Prod.map .length id (l.insertBefore pivot val)
  | insertAfter pivot val => Prod.map .length id (l.insertAfter pivot val)
  | lrem count val => Prod.map .removed id (l.lrem count val)
  | range start stop => (.elements (l.range start stop), l)
  | get index => (.element (l.get index), l)

/-- The sequence without its first `n` occurrences of `val`. -/
def dropFirst (n : ℕ) (val : Bytes) (seq : List Bytes) : List Bytes := (List.erase · val)^[n] seq

local instance lawfulBEq_bytes : LawfulBEq Bytes := inferInstance

/-- The operation on a plain sequence. -/
def onSeq (seq : List Bytes) : ListOp → ListReturn × List Bytes
  | pushFront val => (.unit, val :: seq)
  | pushBack val => (.unit, seq ++ [val])
  | popFront => (.element seq.head?, seq.tail)
  | popBack => (.element seq.getLast?, seq.dropLast)
  | popFrontN n => (.elements (seq.take n), seq.drop n)
  | popBackN n => (.elements (seq.reverse.take n), seq.take (seq.length - n))
  | setIndex index val => (.flag (index < seq.length), seq.set index val)
  | insertBefore pivot val =>
    if pivot ∈ seq then
      (.length (seq.length + 1), seq.takeWhile (· ≠ pivot) ++ val :: seq.dropWhile (· ≠ pivot))
    else (.length (-1), seq)
  | insertAfter pivot val =>
    if pivot ∈ seq then
      (.length (seq.length + 1),
        seq.takeWhile (· ≠ pivot) ++ pivot :: val :: (seq.dropWhile (· ≠ pivot)).tail)
    else (.length (-1), seq)
  | lrem count val =>
    let n := count.1.natAbs
    if 0 < count.1 then (.removed (min n (seq.count val)), dropFirst n val seq)
    else if count.1 < 0 then
      (.removed (min n (seq.count val)), (dropFirst n val seq.reverse).reverse)
    else (.removed (seq.count val), seq.filter (· ≠ val))
  | range start stop => (.elements ((seq.take stop).drop start), seq)
  | get index => (.element seq[index]?, seq)

end ListOp

/-! ## Each operation is the one of the model -/

namespace ListCode

variable {l : RedisList} {val pivot : Bytes}

theorem insertChecked_of_le {v : List Bytes} {index : ℕ} (h : index ≤ v.length) :
    insertChecked v index val = some (v.insertIdx index val) := if_pos h

/-- The insertion at 0 is in range. -/
theorem pushFront_eq : pushFront l val = some (l.pushFront val) := by
  unfold pushFront RedisList.pushFront
  cases l.fit val with
  | small v =>
    simp only [insertChecked_of_le (Nat.zero_le _)]
    rfl
  | large d => rfl

theorem pushBack_eq : pushBack l val = l.pushBack val := by
  unfold pushBack RedisList.pushBack
  cases l.fit val <;> rfl

/-- Both encodings pop the head. -/
theorem popFront_eq : popFront = RedisList.popFront := by
  ext l : 1
  cases l with
  | small v => cases v <;> rfl
  | large d => rfl

theorem popBack_eq : popBack = RedisList.popBack := by
  ext l : 1
  cases l <;> rfl

theorem setIndex_eq (index : ℕ) : setIndex l index val = l.setIndex index val := by
  cases l <;> rfl

/-- A slice up to the shorter of `stop` and the length is in range. -/
theorem range_eq (start stop : ℕ) : range l start stop = some (l.range start stop) := by
  simp only [range, RedisList.range]
  split
  · rfl
  · next h =>
    have hle : start ≤ min stop l.len ∧ min stop l.len ≤ l.toVec.length := by
      rw [RedisList.len] at h ⊢
      omega
    cases l <;> exact if_pos hle

/-- Both encodings are searched from the head. -/
theorem position_eq : position val l = l.position val := by
  cases l <;> rfl

/-- The position of the pivot is inside the list, in the encoding before the insertion and
in the one after. -/
theorem position_lt {pos : ℕ} (h : l.position pivot = some pos) :
    pos < (l.fit val).toVec.length := by
  rw [RedisList.toVec_fit]
  exact (List.findIdx?_eq_some_iff_findIdx_eq.mp h).1

/-- The insertion at the pivot is in range. -/
theorem insertBefore_eq : insertBefore l pivot val = some (l.insertBefore pivot val) := by
  unfold insertBefore RedisList.insertBefore RedisList.insertAt
  rw [position_eq]
  cases hpos : l.position pivot with
  | none => rfl
  | some pos =>
    have hlt : pos < (l.fit val).toVec.length := position_lt hpos
    cases hfit : l.fit val <;>
    · rw [hfit, RedisList.toVec] at hlt
      simp only [insertChecked_of_le hlt.le]
      rfl

/-- The insertion behind the pivot is in range, or the element is added at the end. -/
theorem insertAfter_eq : insertAfter l pivot val = some (l.insertAfter pivot val) := by
  unfold insertAfter RedisList.insertAfter RedisList.insertAt
  rw [position_eq]
  cases hpos : l.position pivot with
  | none => rfl
  | some pos =>
    have hlt : pos < (l.fit val).toVec.length := position_lt hpos
    cases hfit : l.fit val with
    | small v =>
      rw [hfit, RedisList.toVec] at hlt
      simp only
      split
      · next hend =>
        -- The pivot is the last element.
        have hlast : pos + 1 = v.length := by omega
        simp only [hlast, RedisList.map, List.insertIdx_length_self]
        rfl
      · rw [insertChecked_of_le (Nat.succ_le_of_lt hlt)]
        rfl
    | large d =>
      rw [hfit, RedisList.toVec] at hlt
      simp only [insertChecked_of_le (Nat.succ_le_of_lt hlt)]
      rfl

/-- The filter of the source counts up to `limit`, `dropVal` down to 0. -/
theorem filterCounting_eq {limit : ℕ} : ∀ {removed : ℕ} (items : List Bytes), removed ≤ limit →
    filterCounting val limit removed items =
      (removed + (RedisList.dropVal val (limit - removed) items).1,
        (RedisList.dropVal val (limit - removed) items).2)
  | removed, [], _ => by simp [filterCounting, RedisList.dropVal]
  | removed, b :: items, hle => by
    obtain hlt | rfl := hle.lt_or_eq
    · obtain ⟨n, hn⟩ : ∃ n, limit - removed = n + 1 := ⟨limit - removed - 1, by omega⟩
      have hn' : limit - (removed + 1) = n := by omega
      by_cases hb : b = val
      · simp only [filterCounting, hlt, hb, and_self, ↓reduceIte, hn, RedisList.dropVal,
          filterCounting_eq items (Nat.succ_le_of_lt hlt), hn', Prod.mk.injEq, and_true]
        omega
      · simp only [filterCounting, hb, and_false, ↓reduceIte, hn, RedisList.dropVal,
          filterCounting_eq items hle]
    · simp only [filterCounting, lt_self_iff_false, false_and, ↓reduceIte, Nat.sub_self,
        RedisList.dropVal, filterCounting_eq items le_rfl, add_zero]
      cases items <;> simp [RedisList.dropVal]

/-- A limit as long as the list is no limit. -/
theorem filterAll_eq : ∀ {removed n : ℕ} (items : List Bytes), items.length ≤ n →
    filterAll val removed items =
      (removed + (RedisList.dropVal val n items).1, (RedisList.dropVal val n items).2)
  | removed, n, [], _ => by simp [filterAll, RedisList.dropVal]
  | removed, 0, b :: items, h => absurd h (by simp)
  | removed, n + 1, b :: items, h => by
    have hle : items.length ≤ n := Nat.le_of_succ_le_succ h
    by_cases hb : b = val
    · simp only [filterAll, hb, ↓reduceIte, RedisList.dropVal, filterAll_eq items hle,
        Prod.mk.injEq, and_true]
      omega
    · simp only [filterAll, hb, ↓reduceIte, RedisList.dropVal,
        filterAll_eq items (hle.trans n.le_succ)]

/-- The filter with a counter removes what `dropVal` drops. -/
theorem lrem_eq (count : ℤ) : lrem l count val = l.lrem count val := by
  unfold lrem RedisList.lrem
  simp only [filterCounting_eq _ (Nat.zero_le _), filterAll_eq _ le_rfl, Nat.sub_zero, zero_add]

end ListCode

namespace ListOp

/-- The code of the source does not panic, and does what the model says. -/
theorem exec_eq (l : RedisList) (op : ListOp) : op.exec l = some (op.apply l) := by
  cases op with
  | pushFront val => simp [exec, apply, ListCode.pushFront_eq]
  | pushBack val => simp [exec, apply, ListCode.pushBack_eq]
  | popFront => simp [exec, apply, ListCode.popFront_eq]
  | popBack => simp [exec, apply, ListCode.popBack_eq]
  | popFrontN n => simp [exec, apply, ListCode.popFrontN, ListCode.popFront_eq, RedisList.popFrontN]
  | popBackN n => simp [exec, apply, ListCode.popBackN, ListCode.popBack_eq, RedisList.popBackN]
  | setIndex index val => simp [exec, apply, ListCode.setIndex_eq]
  | insertBefore pivot val => simp [exec, apply, ListCode.insertBefore_eq]
  | insertAfter pivot val => simp [exec, apply, ListCode.insertAfter_eq]
  | lrem count val => simp [exec, apply, ListCode.lrem_eq]
  | range start stop => simp [exec, apply, ListCode.range_eq]
  | get index => cases l <;> rfl

/-! ## And to the elements what it should do to a sequence -/

/-- Pops from the head take a first part, by induction on their number. -/
theorem popN_popFront : ∀ (n : ℕ) (l : RedisList),
    (RedisList.popN RedisList.popFront n l).1 = l.toVec.take n ∧
      (RedisList.popN RedisList.popFront n l).2.toVec = l.toVec.drop n
  | 0, l => ⟨rfl, rfl⟩
  | n + 1, l => by
    have ih := popN_popFront n (l.map List.tail)
    rw [RedisList.toVec_map] at ih
    unfold RedisList.popN
    simp only [RedisList.popFront]
    cases hv : l.toVec with
    | nil => simp [hv]
    | cons b v =>
      rw [hv, List.tail_cons] at ih
      exact ⟨congrArg (List.cons b) ih.1, ih.2⟩

/-- Pops from the tail take a last part, reversed. -/
theorem popN_popBack : ∀ (n : ℕ) (l : RedisList),
    (RedisList.popN RedisList.popBack n l).1 = l.toVec.reverse.take n ∧
      (RedisList.popN RedisList.popBack n l).2.toVec = l.toVec.take (l.toVec.length - n)
  | 0, l => by simp [RedisList.popN]
  | n + 1, l => by
    have ih := popN_popBack n (l.map List.dropLast)
    rw [RedisList.toVec_map] at ih
    unfold RedisList.popN
    simp only [RedisList.popBack]
    obtain hv | ⟨v, b, hv⟩ := l.toVec.eq_nil_or_concat
    · simp [hv]
    · rw [List.concat_eq_append] at hv
      rw [hv, List.dropLast_concat] at ih
      rw [hv, List.getLast?_concat]
      refine ⟨?_, ?_⟩
      · rw [List.reverse_concat, List.take_succ_cons, ← ih.1]
      · rw [List.length_append, List.length_singleton, Nat.add_sub_add_right,
          List.take_append_of_le_length (Nat.sub_le _ _), ← ih.2]

/-- The pivot splits the sequence, and the insertion is at the split or one further. -/
theorem insertIdx_position {pivot val : Bytes} : ∀ {v : List Bytes} {pos : ℕ},
    v.findIdx? (· = pivot) = some pos →
      v.insertIdx pos val = v.takeWhile (· ≠ pivot) ++ val :: v.dropWhile (· ≠ pivot) ∧
      v.insertIdx (pos + 1) val =
        v.takeWhile (· ≠ pivot) ++ pivot :: val :: (v.dropWhile (· ≠ pivot)).tail
  | [], pos, h => by simp at h
  | b :: v, pos, h => by
    rw [List.findIdx?_cons] at h
    by_cases hb : b = pivot
    · obtain rfl : 0 = pos := by simpa [hb] using h
      simp [hb]
    · simp only [hb, decide_false, Bool.false_eq_true, ↓reduceIte, Option.map_eq_some_iff] at h
      obtain ⟨i, hi, rfl⟩ := h
      obtain ⟨hbefore, hafter⟩ := @insertIdx_position pivot val _ _ hi
      simp [hb, hbefore, hafter]

/-- What an insertion makes of the sequence. -/
theorem insertAt_of_position {l : RedisList} {pivot val : Bytes} {pos offset : ℕ}
    (h : l.position pivot = some pos) (hoffset : offset ≤ 1) :
    (l.insertAt offset pivot val).1 = l.toVec.length + 1 ∧
      (l.insertAt offset pivot val).2.toVec = l.toVec.insertIdx (pos + offset) val := by
  have hlt := (List.findIdx?_eq_some_iff_findIdx_eq.mp h).1
  have hle : pos + offset ≤ l.toVec.length := by omega
  simp [RedisList.insertAt, h, RedisList.len, List.length_insertIdx_of_le_length hle]

/-- No position means that the value is not there. -/
theorem position_eq_none_iff {l : RedisList} {pivot : Bytes} :
    l.position pivot = none ↔ pivot ∉ l.toVec := by
  simp only [RedisList.position, List.findIdx?_eq_none_iff, decide_eq_false_iff_not]
  exact ⟨fun h hmem => h pivot hmem rfl, fun h b hb heq => h (heq ▸ hb)⟩

theorem mem_of_position {l : RedisList} {pivot : Bytes} {pos : ℕ}
    (h : l.position pivot = some pos) : pivot ∈ l.toVec := by
  by_contra hnot
  rw [position_eq_none_iff.mpr hnot] at h
  cases h

theorem dropFirst_cons_self (n : ℕ) (val : Bytes) (seq : List Bytes) :
    dropFirst (n + 1) val (val :: seq) = dropFirst n val seq := by
  simp [dropFirst]

theorem dropFirst_cons_of_ne {b val : Bytes} (hb : b ≠ val) : ∀ (n : ℕ) (seq : List Bytes),
    dropFirst n val (b :: seq) = b :: dropFirst n val seq
  | 0, seq => rfl
  | n + 1, seq => by
    have herase : (b :: seq).erase val = b :: seq.erase val := by simp [hb]
    have ih := dropFirst_cons_of_ne hb n (seq.erase val)
    simp only [dropFirst, Function.iterate_succ, Function.comp_apply, herase] at ih ⊢
    exact ih

theorem dropFirst_nil (n : ℕ) (val : Bytes) : dropFirst n val [] = [] :=
  Function.iterate_fixed rfl n

/-- `dropVal` removes the first occurrences, as many as there are up to the limit. -/
theorem dropVal_eq (val : Bytes) : ∀ (n : ℕ) (seq : List Bytes),
    RedisList.dropVal val n seq = (min n (seq.count val), dropFirst n val seq)
  | n, [] => by simp [RedisList.dropVal, dropFirst_nil]
  | 0, b :: seq => by simp [RedisList.dropVal, dropFirst]
  | n + 1, b :: seq => by
    by_cases hb : b = val
    · simp only [RedisList.dropVal, hb, ↓reduceIte, dropVal_eq val n seq, List.count_cons_self,
        dropFirst_cons_self, Nat.add_min_add_right]
    · simp only [RedisList.dropVal, hb, ↓reduceIte, dropVal_eq val (n + 1) seq,
        List.count_cons_of_ne hb, dropFirst_cons_of_ne hb]

/-- Without a limit all occurrences go. -/
theorem dropFirst_length (val : Bytes) : ∀ {n : ℕ} (seq : List Bytes), seq.length ≤ n →
    dropFirst n val seq = seq.filter (· ≠ val)
  | n, [], _ => dropFirst_nil n val
  | 0, b :: seq, h => absurd h (by simp)
  | n + 1, b :: seq, h => by
    have hle : seq.length ≤ n := Nat.le_of_succ_le_succ h
    by_cases hb : b = val
    · rw [hb, dropFirst_cons_self, dropFirst_length val seq hle]
      simp
    · rw [dropFirst_cons_of_ne hb, dropFirst_length val seq (hle.trans n.le_succ)]
      simp [hb]

/-- Negation does not overflow above the least integer. -/
theorem wrap_neg {x : ℤ} (h : Text.i64Min < x) (h' : x < 0) : (Text.wrap (-x)).1 = -x := by
  rw [Text.i64Min] at h
  exact Int.bmod_eq_of_le (by omega) (by omega)

theorem neg_le_i64Max {x : ℤ} (h : Text.i64Min < x) : -x ≤ Text.i64Max := by
  rw [Text.i64Min] at h
  rw [Text.i64Max]
  omega

/-- A range as a part of the sequence. -/
theorem range_eq_drop_take (l : RedisList) (start stop : ℕ) :
    l.range start stop = (l.toVec.take stop).drop start := by
  simp only [RedisList.range]
  split
  · next h =>
    rw [List.drop_eq_nil_of_le]
    rwa [List.length_take]
  · rw [List.drop_take, List.take_eq_take_iff, List.length_drop, RedisList.len]
    omega

@[simp] theorem toVec_small (v : List Bytes) : (RedisList.small v).toVec = v := rfl

/-- What an operation returns, and what it makes of the elements. -/
theorem apply_onSeq (l : RedisList) (op : ListOp) :
    (op.apply l).1 = (op.onSeq l.toVec).1 ∧ (op.apply l).2.toVec = (op.onSeq l.toVec).2 := by
  cases op with
  | pushFront val => simp [apply, onSeq]
  | pushBack val => simp [apply, onSeq]
  | popFront => simp [apply, onSeq, RedisList.popFront]
  | popBack => simp [apply, onSeq, RedisList.popBack]
  | popFrontN n => simp [apply, onSeq, RedisList.popFrontN, popN_popFront]
  | popBackN n => simp [apply, onSeq, RedisList.popBackN, popN_popBack]
  | setIndex index val =>
    by_cases h : index < l.toVec.length
    · simp [apply, onSeq, RedisList.setIndex, RedisList.len, h]
    · simp [apply, onSeq, RedisList.setIndex, RedisList.len, h,
        List.set_eq_of_length_le (Nat.le_of_not_lt h)]
  | insertBefore pivot val =>
    cases hpos : l.position pivot with
    | none =>
      have hmem := position_eq_none_iff.mp hpos
      simp [apply, onSeq, RedisList.insertBefore, RedisList.insertAt, hpos, hmem]
    | some pos =>
      obtain ⟨hlength, helems⟩ := @insertAt_of_position l pivot val _ _ hpos (Nat.zero_le 1)
      rw [Nat.add_zero, (insertIdx_position hpos).1] at helems
      simp [apply, onSeq, RedisList.insertBefore, hlength, helems, mem_of_position hpos]
  | insertAfter pivot val =>
    cases hpos : l.position pivot with
    | none =>
      have hmem := position_eq_none_iff.mp hpos
      simp [apply, onSeq, RedisList.insertAfter, RedisList.insertAt, hpos, hmem]
    | some pos =>
      obtain ⟨hlength, helems⟩ := @insertAt_of_position l pivot val _ _ hpos (Nat.le_refl 1)
      rw [(insertIdx_position hpos).2] at helems
      simp [apply, onSeq, RedisList.insertAfter, hlength, helems, mem_of_position hpos]
  | lrem count val =>
    obtain ⟨count, hmin, hmax⟩ := count
    obtain hneg | rfl | hpos := lt_trichotomy count 0
    · have hlimit : Text.asUsize (Text.wrap (-count)) = count.natAbs := by
        rw [wrap_neg hmin hneg, Text.asUsize_of_nonneg (by omega) (neg_le_i64Max hmin), Int.natAbs_neg]
      simp [apply, onSeq, RedisList.lrem, hneg, hneg.not_gt, hlimit, dropVal_eq]
    · simp [apply, onSeq, RedisList.lrem, dropVal_eq, dropFirst_length val l.toVec le_rfl,
        List.count_le_length]
    · simp [apply, onSeq, RedisList.lrem, hpos, Text.asUsize_of_nonneg hpos.le hmax, dropVal_eq]
  | range start stop =>
    refine ⟨congrArg ListReturn.elements ?_, rfl⟩
    exact range_eq_drop_take l start stop
  | get index => exact ⟨rfl, rfl⟩

end ListOp

/-! ## Runs -/

namespace ListOp

/-- The operations one after the other, with what each returns. -/
def run (l : RedisList) : List ListOp → Option (List ListReturn × RedisList)
  | [] => some ([], l)
  | op :: ops =>
    (op.exec l).bind fun p => (run p.2 ops).map fun q => (p.1 :: q.1, q.2)

/-- The same on a plain sequence. -/
def runOnSeq (seq : List Bytes) : List ListOp → List ListReturn × List Bytes
  | [] => ([], seq)
  | op :: ops =>
    let p := op.onSeq seq
    (p.1 :: (runOnSeq p.2 ops).1, (runOnSeq p.2 ops).2)

/-- A run on a list is the run on its sequence, whatever the encoding. -/
theorem run_of_toVec : ∀ (ops : List ListOp) (l : RedisList),
    ∃ l', run l ops = some ((runOnSeq l.toVec ops).1, l') ∧ l'.toVec = (runOnSeq l.toVec ops).2
  | [], l => ⟨l, rfl, rfl⟩
  | op :: ops, l => by
    obtain ⟨hret, helems⟩ := op.apply_onSeq l
    obtain ⟨l', hrun, hl'⟩ := run_of_toVec ops (op.apply l).2
    rw [helems] at hrun hl'
    refine ⟨l', ?_, hl'⟩
    rw [run, exec_eq, Option.bind_some, hrun, Option.map_some, hret]
    rfl

/-- A list that starts empty returns from any operations what a plain sequence would, and
has the same elements after them. -/
theorem encodings_transparent (ops : List ListOp) :
    ∃ l, run RedisList.new ops = some ((runOnSeq [] ops).1, l) ∧ l.toVec = (runOnSeq [] ops).2 :=
  run_of_toVec ops RedisList.new

end ListOp

end LoonyRedis
