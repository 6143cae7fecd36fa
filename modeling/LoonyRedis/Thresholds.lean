import LoonyRedis.HashEncodings
import LoonyRedis.SetEncodings
import LoonyRedis.Lib.Traces

/-!
# The thresholds of the compact encodings

A list, a hash and a set are kept in a `Vec` until they would have more than 128 entries or
an element of more than 64 bytes. `KeepsThresholds` says of a run that each `Vec` in it is
within both thresholds and that a value never goes back to a `Vec`.

Sets keep this, whatever is done to them. Lists do not : `set_index` overwrites an element in
place and `lrem` and `ltrim` always build a `Vec`, from a large list too. For hashes the
one exception is `get_mut`, which gives away a reference to a value. `thresholds_kept_iff`
says of each run whether the thresholds are kept in it, by a condition on the steps.
-/

namespace LoonyRedis

open Traces

/-! ## Within the thresholds -/

section

variable {α : Type} {size : α → ℕ} {v w : List α} {e : α}

/-- The entries of a `Vec` are few and small. -/
def CompactVec (size : α → ℕ) (v : List α) : Prop :=
  v.length ≤ maxListpackEntries ∧ ∀ e ∈ v, size e ≤ maxElementBytes

theorem CompactVec.nil : CompactVec size [] := ⟨Nat.zero_le _, by simp⟩

/-- Fewer of the same elements are within the thresholds. -/
theorem CompactVec.shrink (h : CompactVec size v) (hlen : w.length ≤ v.length)
    (hmem : ∀ x ∈ w, x ∈ v) : CompactVec size w :=
  ⟨hlen.trans h.1, fun x hx => h.2 x (hmem x hx)⟩

theorem CompactVec.sublist (h : CompactVec size v) (hsub : w.Sublist v) : CompactVec size w :=
  h.shrink hsub.length_le fun _ hx => hsub.subset hx

/-- A small element may take the place of others, or come on top if there is room. -/
theorem CompactVec.add (h : CompactVec size v) (hsize : size e ≤ maxElementBytes)
    (hlen : w.length ≤ maxListpackEntries) (hmem : ∀ x ∈ w, x = e ∨ x ∈ v) :
    CompactVec size w := by
  refine ⟨hlen, fun x hx => ?_⟩
  obtain rfl | hxv := hmem x hx
  · exact hsize
  · exact h.2 x hxv

end

section

variable {σ ι : Type} (step : σ → ι → σ) (Compact IsLarge : σ → Prop)

/-- Every state of the run is within the thresholds, and a large one stays large. -/
def KeepsThresholds (s : σ) (ms : List ι) : Prop :=
  (∀ t ∈ states step s ms, Compact t) ∧ (states step s ms).Pairwise fun t u => IsLarge t → IsLarge u

/-- What an operation on `s` that leaves `t` does not break. -/
def Keeps (s t : σ) : Prop := (Compact s → Compact t) ∧ (IsLarge s → IsLarge t)

variable {step Compact IsLarge}

theorem Keeps.refl (s : σ) : Keeps Compact IsLarge s s := ⟨id, id⟩

theorem Keeps.trans {s t u : σ} (h : Keeps Compact IsLarge s t) (h' : Keeps Compact IsLarge t u) :
    Keeps Compact IsLarge s u := ⟨h'.1 ∘ h.1, h'.2 ∘ h.2⟩

/-- Steps that keep the thresholds, one after the other. -/
theorem Keeps.foldl {β : Type} {f : σ → β → σ} (h : ∀ s b, Keeps Compact IsLarge s (f s b)) :
    ∀ (bs : List β) (s : σ), Keeps Compact IsLarge s (bs.foldl f s)
  | [], s => .refl s
  | b :: bs, s => (h s b).trans (Keeps.foldl h bs (f s b))

/-- The runs that keep the thresholds, from a condition that decides it for one step. -/
theorem keepsThresholds_iff {Meets : σ → ι → Prop}
    (hstep : ∀ s m, Compact s →
      ((Compact (step s m) ∧ (IsLarge s → IsLarge (step s m))) ↔ Meets s m))
    {s : σ} (hs : Compact s) (ms : List ι) :
    KeepsThresholds step Compact IsLarge s ms ↔ AllSteps step Meets s ms := by
  rw [KeepsThresholds, forall_states hs,
    pairwise_states (R := fun t u => IsLarge t → IsLarge u) fun h h' => h' ∘ h, ← allSteps_and]
  exact allSteps_congr hstep (fun _ _ _ h => h.1) hs

/-- A step that always keeps the thresholds keeps them along every run. -/
theorem keepsThresholds_of_kept (h : ∀ s m, Keeps Compact IsLarge s (step s m)) {s : σ}
    (hs : Compact s) (ms : List ι) : KeepsThresholds step Compact IsLarge s ms := by
  rw [keepsThresholds_iff (fun s m hc => iff_of_true ⟨(h s m).1 hc, (h s m).2⟩ trivial) hs]
  exact allSteps_of_forall (fun _ _ => trivial) ms s

end

/-! ## Lists -/

namespace RedisList

/-- A small list is within the thresholds. -/
def Compact : RedisList → Prop
  | small v => CompactVec List.length v
  | large _ => True

/-- The list is in the large encoding. -/
def IsLarge : RedisList → Prop
  | small _ => False
  | large _ => True

theorem compact_new : new.Compact := CompactVec.nil

/-- An operation keeps the thresholds, and a large list large. -/
abbrev Kept (l l' : RedisList) : Prop := Keeps Compact IsLarge l l'

variable {l : RedisList} {val : Bytes} {f : List Bytes → List Bytes}

/-- An operation that takes elements out. -/
theorem kept_map (h : ∀ v, (f v).Sublist v) : l.Kept (l.map f) := by
  cases l with
  | small v => exact ⟨fun hv => CompactVec.sublist hv (h v), id⟩
  | large d => exact .refl _

/-- An element that is added is added in an encoding that it fits. -/
theorem kept_fit_map (hlen : ∀ v, (f v).length ≤ v.length + 1)
    (hmem : ∀ v, ∀ x ∈ f v, x = val ∨ x ∈ v) : l.Kept ((l.fit val).map f) := by
  cases l with
  | large d => exact .refl _
  | small v =>
    unfold fit
    split
    · exact ⟨fun _ => trivial, fun _ => trivial⟩
    · next hfit =>
      simp only [needsPromote, ge_iff_le, gt_iff_lt, Bool.or_eq_true, decide_eq_true_eq,
        not_or, not_le, not_lt] at hfit
      exact ⟨fun hv => CompactVec.add hv hfit.2 ((hlen v).trans hfit.1) (hmem v), id⟩

/-- Pops keep the thresholds, by induction on their number. -/
theorem kept_popN {pop : RedisList → Option Bytes × RedisList}
    (h : ∀ l : RedisList, l.Kept (pop l).2) : ∀ (n : ℕ) (l : RedisList), l.Kept (popN pop n l).2
  | 0, l => .refl l
  | n + 1, l => by
    have hpop := h l
    unfold popN
    split
    · next heq =>
      rw [heq] at hpop
      exact hpop.trans (kept_popN h n _)
    · next heq =>
      rw [heq] at hpop
      exact hpop

theorem kept_popFront : l.Kept l.popFront.2 := kept_map fun v => List.tail_sublist v
theorem kept_popBack : l.Kept l.popBack.2 := kept_map fun v => List.dropLast_sublist v

/-- An insertion promotes the list first if it has to. -/
theorem kept_insertAt (offset : ℕ) (pivot : Bytes) : l.Kept (l.insertAt offset pivot val).2 := by
  unfold insertAt
  split
  · exact .refl l
  · refine kept_fit_map (fun v => ?_) (fun v x hx => ?_)
    · rw [List.length_insertIdx]
      split <;> omega
    · exact List.eq_or_mem_of_mem_insertIdx hx

/-- A removal takes elements out. -/
theorem dropVal_sublist : ∀ (limit : ℕ) (items : List Bytes),
    (dropVal val limit items).2.Sublist items
  | _, [] => by simp [dropVal]
  | 0, _ :: _ => by simp [dropVal]
  | limit + 1, b :: items => by
    unfold dropVal
    split
    · exact (dropVal_sublist limit items).cons b
    · exact (dropVal_sublist (limit + 1) items).cons_cons b

/-- What `lrem` leaves is a `Vec` with some of the elements. -/
theorem lrem_eq_small (l : RedisList) (count : ℤ) (val : Bytes) :
    ∃ v, (l.lrem count val).2 = small v ∧ v.Sublist l.toVec := by
  simp only [lrem]
  split
  · exact ⟨_, rfl, dropVal_sublist _ _⟩
  · split
    · refine ⟨_, rfl, ?_⟩
      rw [← List.reverse_sublist, List.reverse_reverse]
      exact dropVal_sublist _ _
    · exact ⟨_, rfl, dropVal_sublist _ _⟩

/-- So is what `ltrim` leaves. -/
theorem ltrim_eq_small (l : RedisList) (start stop : ℤ) :
    ∃ v, l.ltrim start stop = small v ∧ v.Sublist l.toVec := by
  unfold ltrim
  extract_lets len s e
  split
  · exact ⟨[], rfl, List.nil_sublist _⟩
  · refine ⟨_, rfl, ?_⟩
    rw [ListOp.range_eq_drop_take]
    exact (List.drop_sublist _ _).trans (List.take_sublist _ _)

/-- A `Vec` with some of the elements is what the thresholds ask for unless the list was
large. -/
theorem compact_of_eq_small {l l' : RedisList} (hl : l.Compact)
    (h : ∃ v, l' = small v ∧ v.Sublist l.toVec) :
    (l'.Compact ∧ (l.IsLarge → l'.IsLarge)) ↔ ¬l.IsLarge := by
  obtain ⟨v, rfl, hsub⟩ := h
  cases l with
  | small w => exact iff_of_true ⟨CompactVec.sublist hl hsub, id⟩ id
  | large d => exact iff_of_false (fun h => h.2 trivial) (fun h => h trivial)

/-- `LSET` does not promote, so the new element has to be short. -/
theorem compact_setIndex {l : RedisList} (hl : l.Compact) (index : ℕ) (val : Bytes) :
    ((l.setIndex index val).2.Compact ∧ (l.IsLarge → (l.setIndex index val).2.IsLarge)) ↔
      l.IsLarge ∨ l.len ≤ index ∨ val.length ≤ maxElementBytes := by
  unfold setIndex
  split
  · next hlt =>
    cases l with
    | large d => exact iff_of_true ⟨trivial, id⟩ (Or.inl trivial)
    | small v =>
      constructor
      · intro h
        refine Or.inr (Or.inr (h.1.2 val ?_))
        exact List.mem_set hlt val
      · rintro (hlarge | hle | hsize)
        · exact hlarge.elim
        · exact absurd hlt hle.not_gt
        · refine ⟨CompactVec.add hl hsize ?_ fun x hx => (List.mem_or_eq_of_mem_set hx).symm, id⟩
          rw [List.length_set]
          exact hl.1
  · next hge => exact iff_of_true ⟨hl, id⟩ (Or.inr (Or.inl (Nat.le_of_not_lt hge)))

end RedisList

/-- A method of a list : an operation, a removal with the least count, `ltrim`, or one that
only reads. -/
inductive ListMethod where
  | op (op : ListOp)
  | lremLeast (val : Bytes)
  | ltrim (start stop : Text.I64)
  | reads

namespace ListMethod

/-- The list after the method. -/
def next (l : RedisList) : ListMethod → RedisList
  | op o => (o.apply l).2
  | lremLeast val => (l.lrem Text.i64Min val).2
  | ltrim start stop => l.ltrim start stop
  | reads => l

/-- An overwritten element stays within its threshold, and what builds a `Vec` finds one. -/
def Fits (l : RedisList) : ListMethod → Prop
  | op (.setIndex index val) => l.IsLarge ∨ l.len ≤ index ∨ val.length ≤ maxElementBytes
  | op (.lrem _ _) => ¬l.IsLarge
  | lremLeast _ => ¬l.IsLarge
  | ltrim _ _ => ¬l.IsLarge
  | _ => True

/-- A list method keeps the thresholds exactly if it is no `LSET` of a long element. -/
theorem next_iff (l : RedisList) (m : ListMethod) (hl : l.Compact) :
    ((next l m).Compact ∧ (l.IsLarge → (next l m).IsLarge)) ↔ Fits l m := by
  have hkept {l' : RedisList} (h : l.Kept l') :
      (l'.Compact ∧ (l.IsLarge → l'.IsLarge)) ↔ True := iff_of_true ⟨h.1 hl, h.2⟩ trivial
  cases m with
  | op o =>
    cases o with
    | setIndex index val => exact RedisList.compact_setIndex hl index val
    | lrem count val => exact RedisList.compact_of_eq_small hl (l.lrem_eq_small count val)
    | pushFront val =>
      exact hkept (RedisList.kept_fit_map (fun v => by simp) fun v x hx => List.mem_cons.mp hx)
    | pushBack val =>
      refine hkept (RedisList.kept_fit_map (fun v => by simp) fun v x hx => ?_)
      simpa [or_comm] using hx
    | popFront => exact hkept RedisList.kept_popFront
    | popBack => exact hkept RedisList.kept_popBack
    | popFrontN n => exact hkept (RedisList.kept_popN (fun _ => RedisList.kept_popFront) n l)
    | popBackN n => exact hkept (RedisList.kept_popN (fun _ => RedisList.kept_popBack) n l)
    | insertBefore pivot val => exact hkept (RedisList.kept_insertAt 0 pivot)
    | insertAfter pivot val => exact hkept (RedisList.kept_insertAt 1 pivot)
    | range start stop => exact hkept (.refl l)
    | get index => exact hkept (.refl l)
  | lremLeast val => exact RedisList.compact_of_eq_small hl (l.lrem_eq_small _ val)
  | ltrim start stop => exact RedisList.compact_of_eq_small hl (l.ltrim_eq_small start stop)
  | reads => exact hkept (.refl l)

end ListMethod

/-! ## Hashes -/

/-- The length of the longer of a field and its value. -/
def pairSize (p : Bytes × Bytes) : ℕ := max p.1.length p.2.length

namespace RawHash

/-- A small hash is within the thresholds. -/
def Compact : RawHash → Prop
  | small v => CompactVec pairSize v
  | large _ => True

/-- The hash is in the large encoding. -/
def IsLarge : RawHash → Prop
  | small _ => False
  | large _ => True

theorem compact_new : HashCode.new.Compact := CompactVec.nil

/-- An operation keeps the thresholds, and a large hash large. -/
abbrev Kept (h h' : RawHash) : Prop := Keeps Compact IsLarge h h'

end RawHash

namespace HashCode

variable {h : RawHash} {field value : Bytes} {v w : List (Bytes × Bytes)}

/-- An assignment changes one pair and no field. -/
theorem assignFirst_some : ∀ {v w : List (Bytes × Bytes)}, assignFirst field value v = some w →
    w.length = v.length ∧ (field, value) ∈ w ∧ ∀ p ∈ w, p = (field, value) ∨ p ∈ v
  | [], w, heq => by simp [assignFirst] at heq
  | q :: v, w, heq => by
    unfold assignFirst at heq
    split at heq
    · next hq =>
      obtain rfl := Option.some.inj heq
      simp only [hq, List.length_cons, List.mem_cons, true_or, true_and]
      rintro p (rfl | hp)
      · exact Or.inl rfl
      · exact Or.inr (Or.inr hp)
    · obtain ⟨u, hu, rfl⟩ := Option.map_eq_some_iff.mp heq
      obtain ⟨hlen, hmem, hold⟩ := assignFirst_some hu
      refine ⟨congrArg (· + 1) hlen, List.mem_cons_of_mem q hmem, fun p hp => ?_⟩
      obtain rfl | hp := List.mem_cons.mp hp
      · exact Or.inr List.mem_cons_self
      · exact (hold p hp).imp_right (List.mem_cons_of_mem q)

/-- A field is assigned if a pair has it. -/
theorem assignFirst_eq_none : ∀ {v : List (Bytes × Bytes)},
    assignFirst field value v = none ↔ (v.any fun p => p.1 = field) = false
  | [] => by simp [assignFirst]
  | q :: v => by
    by_cases hq : q.1 = field
    · simp [assignFirst, hq]
    · simp [assignFirst, hq, assignFirst_eq_none]

/-- A pair that is set is set in an encoding that it fits. -/
theorem kept_hset : h.Kept (hset h field value).2 := by
  cases h with
  | large m => exact .refl _
  | small v =>
    unfold hset
    split
    · next u heq =>
      split at heq
      · simp [promote] at heq
      · next hfit =>
        obtain rfl := RawHash.small.inj heq
        simp only [needsPromote, ge_iff_le, gt_iff_lt, Bool.or_eq_true, decide_eq_true_eq,
          not_or, not_le, not_lt, or_assoc] at hfit
        have hsize : pairSize (field, value) ≤ maxElementBytes := max_le hfit.2.1 hfit.2.2
        split
        · next w hw =>
          obtain ⟨hlen, -, hold⟩ := assignFirst_some hw
          exact ⟨fun hv => CompactVec.add hv hsize (hlen ▸ hv.1) hold, id⟩
        · refine ⟨fun hv => CompactVec.add hv hsize ?_ fun p hp => ?_, id⟩
          · rw [List.length_append]
            exact hfit.1
          · simpa [or_comm] using hp
    · exact ⟨fun _ => trivial, fun _ => trivial⟩

theorem kept_hsetnx : h.Kept (hsetnx h field value).2 := by
  unfold hsetnx
  split
  · exact .refl h
  · exact kept_hset

theorem kept_hdel (fields : List Bytes) : h.Kept (hdel h fields).2 := by
  cases h with
  | small v => exact ⟨fun hv => CompactVec.sublist hv List.filter_sublist, id⟩
  | large m => exact .refl _

/-- `get_mut` and an assignment through the reference it gives. -/
def getMut (h : RawHash) (field value : Bytes) : RawHash :=
  match h with
  | .small v => .small ((assignFirst field value v).getD v)
  | .large m => if m.contains field then .large (m.insert field value) else .large m

/-- An assignment does not promote, so the new value has to be short. -/
theorem compact_getMut (hh : h.Compact) :
    ((getMut h field value).Compact ∧ (h.IsLarge → (getMut h field value).IsLarge)) ↔
      h.IsLarge ∨ contains h field = false ∨ value.length ≤ maxElementBytes := by
  cases h with
  | large m =>
    refine iff_of_true ?_ (Or.inl trivial)
    simp only [getMut]
    split <;> exact ⟨trivial, id⟩
  | small v =>
    simp only [getMut, contains]
    cases hassign : assignFirst field value v with
    | none => exact iff_of_true ⟨hh, id⟩ (Or.inr (Or.inl (assignFirst_eq_none.mp hassign)))
    | some w =>
      obtain ⟨hlen, hmem, hold⟩ := assignFirst_some hassign
      have hfound : (v.any fun p => p.1 = field) ≠ false := fun hnone => by
        simp [assignFirst_eq_none.mpr hnone] at hassign
      rw [Option.getD_some]
      constructor
      · intro h
        exact Or.inr (Or.inr ((le_max_right _ _).trans (h.1.2 _ hmem)))
      · rintro (hlarge | hnone | hsize)
        · exact hlarge.elim
        · exact absurd hnone hfound
        · obtain ⟨p, hp, hpf⟩ := List.any_eq_true.mp (Bool.eq_true_of_not_eq_false hfound)
          have hfield : field.length ≤ maxElementBytes := by
            rw [← of_decide_eq_true hpf]
            exact (le_max_left _ _).trans (hh.2 p hp)
          exact ⟨CompactVec.add hh (max_le hfield hsize) (hlen ▸ hh.1) hold, id⟩

end HashCode

/-- An operation of a hash, or an assignment through the reference of `get_mut`. -/
inductive HashCall where
  | method (m : HashMethod)
  | getMut (field value : Bytes)

namespace HashCall

/-- The hash after the call. -/
def next (h : RawHash) : HashCall → RawHash
  | method m => (m.exec h).2
  | getMut field value => HashCode.getMut h field value

/-- A value that is assigned through a reference stays within its threshold. -/
def Fits (h : RawHash) : HashCall → Prop
  | method _ => True
  | getMut field value =>
    h.IsLarge ∨ HashCode.contains h field = false ∨ value.length ≤ maxElementBytes

theorem kept_exec (h : RawHash) (m : HashMethod) : h.Kept (m.exec h).2 := by
  cases m with
  | hset field value => exact HashCode.kept_hset
  | hsetnx field value => exact HashCode.kept_hsetnx
  | hdel fields => exact HashCode.kept_hdel fields
  | get | contains | len | keys | values | allPairs => exact .refl h

/-- A hash call keeps the thresholds exactly if it is no assignment of a long value. -/
theorem next_iff (h : RawHash) (c : HashCall) (hh : h.Compact) :
    ((next h c).Compact ∧ (h.IsLarge → (next h c).IsLarge)) ↔ Fits h c := by
  cases c with
  | method m => exact iff_of_true ⟨(kept_exec h m).1 hh, (kept_exec h m).2⟩ trivial
  | getMut field value => exact HashCode.compact_getMut hh

end HashCall

/-! ## Sets -/

namespace RawSet

/-- A small set is within the thresholds. -/
def Compact : RawSet → Prop
  | small v => CompactVec List.length v
  | large _ => True

/-- The set is in the large encoding. -/
def IsLarge : RawSet → Prop
  | small _ => False
  | large _ => True

theorem compact_new : SetCode.new.Compact := CompactVec.nil

/-- An operation keeps the thresholds, and a large set large. -/
abbrev Kept (s s' : RawSet) : Prop := Keeps Compact IsLarge s s'

end RawSet

namespace SetCode

variable {s : RawSet}

/-- A member that is added is added in an encoding that it fits. -/
theorem kept_addStep (added : ℕ) (m : Bytes) : s.Kept (addStep added s m).2 := by
  cases s with
  | large t => exact .refl _
  | small v =>
    unfold addStep
    split
    · next u heq =>
      split at heq
      · simp [promote] at heq
      · next hfit =>
        obtain rfl := RawSet.small.inj heq
        simp only [needsPromote, ge_iff_le, gt_iff_lt, Bool.or_eq_true, decide_eq_true_eq,
          not_or, not_le, not_lt] at hfit
        split
        · refine ⟨fun hv => CompactVec.add hv hfit.2 ?_ fun x hx => ?_, id⟩
          · rw [List.length_append]
            exact hfit.1
          · simpa [or_comm] using hx
        · exact .refl _
    · exact ⟨fun _ => trivial, fun _ => trivial⟩

/-- Members are added one after the other, and the set promoted on the way. -/
theorem kept_foldl_addStep : ∀ (members : List Bytes) (added : ℕ) (s : RawSet),
    s.Kept (members.foldl (fun p m => addStep p.1 p.2 m) (added, s)).2
  | [], _, s => .refl s
  | m :: members, added, s =>
    (kept_addStep added m).trans (kept_foldl_addStep members (addStep added s m).1 _)

theorem kept_srem (members : List Bytes) : s.Kept (srem s members).2 := by
  cases s with
  | small v => exact ⟨fun hv => CompactVec.sublist hv List.filter_sublist, id⟩
  | large t => exact .refl _

theorem kept_removeOne (s : RawSet) (member : Bytes) : s.Kept (removeOne s member).2 := by
  cases s with
  | large t => exact .refl _
  | small v =>
    simp only [removeOne]
    cases hpos : v.findIdx? fun m => m = member with
    | none => exact .refl _
    | some i =>
      have hlt := (List.findIdx?_eq_some_iff_findIdx_eq.mp hpos).1
      have hperm := swapRemove_perm_eraseIdx hlt
      refine ⟨fun hv => CompactVec.shrink hv ?_ fun x hx => ?_, id⟩
      · rw [hperm.length_eq]
        exact (List.eraseIdx_sublist v i).length_le
      · exact List.mem_of_mem_eraseIdx (hperm.mem_iff.mp hx)

theorem kept_spop (env : Env) (count : ℕ) : s.Kept (spop env s count).2 := by
  simp only [spop]
  split
  · exact .refl s
  · exact Keeps.foldl kept_removeOne _ s

end SetCode

/-- No operation of a set breaks the thresholds. -/
theorem SetMethod.kept_exec (s : RawSet) (m : SetMethod) : s.Kept (m.exec s).2 := by
  cases m with
  | sadd members => exact SetCode.kept_foldl_addStep members 0 s
  | srem members => exact SetCode.kept_srem members
  | removeOne member => exact SetCode.kept_removeOne s member
  | spop env count => exact SetCode.kept_spop env count
  | contains | len | members | randomMembers => exact .refl s

/-! ## Runs -/

/-- A list keeps its thresholds along the runs whose steps all fit, and a hash likewise; a set
keeps them along every run. -/
theorem thresholds_kept_iff (ms : List ListMethod) (cs : List HashCall) (ss : List SetMethod) :
    (KeepsThresholds ListMethod.next RedisList.Compact RedisList.IsLarge RedisList.new ms ↔
      AllSteps ListMethod.next ListMethod.Fits RedisList.new ms) ∧
    (KeepsThresholds HashCall.next RawHash.Compact RawHash.IsLarge HashCode.new cs ↔
      AllSteps HashCall.next HashCall.Fits HashCode.new cs) ∧
    KeepsThresholds (fun s m => (m.exec s).2) RawSet.Compact RawSet.IsLarge SetCode.new ss := by
  refine ⟨?_, ?_, ?_⟩
  · exact keepsThresholds_iff ListMethod.next_iff RedisList.compact_new ms
  · exact keepsThresholds_iff HashCall.next_iff RawHash.compact_new cs
  · exact keepsThresholds_of_kept SetMethod.kept_exec RawSet.compact_new ss

/-- `set_index` puts an element of 65 bytes into a list that stays a `Vec`. -/
theorem setIndex_exceeds : ¬∀ ms : List ListMethod,
    KeepsThresholds ListMethod.next RedisList.Compact RedisList.IsLarge RedisList.new ms := by
  intro h
  have hstates := (h [.op (.pushBack [97]), .op (.setIndex 0 (List.replicate 65 97))]).1
  have hcompact : (RedisList.small [List.replicate 65 97]).Compact :=
    hstates _ (List.mem_cons_of_mem _ (List.mem_cons_of_mem _ List.mem_cons_self))
  exact absurd (hcompact.2 _ List.mem_cons_self) (by decide)

end LoonyRedis
