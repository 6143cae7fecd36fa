import LoonyRedis.ListEncodings
import Mathlib.Data.Finset.Card
import Mathlib.Data.List.GetD

/-!
# The encodings of a set are transparent

The source keeps a small set as a `Vec`, where the type alone does not rule out that a member
is stored twice, and a large one as a `HashSet`. `RawSet` is a set of this form, `SetCode`
has the operations of the source on it, with the shuffles and the listings of a `HashSet` in
the order the environment gives, and `SetMethod.exec` is one of them.

What an operation may return is not determined when it draws at random, so on a finite set
it is a relation : `SetMethod.Allows s op r s'` says that `op` may return `r` from the set
`s` and leave `s'`. `SetMethod.exec_raw` takes the code to the operations of `RedisSet`, and
`SetMethod.allows_apply` says that these return what a finite set allows, whatever the
environment is.
-/

namespace LoonyRedis

open Std

/-! ## The code for each encoding -/

/-- A set as the source stores it. -/
inductive RawSet where
  | small (v : List Bytes)
  | large (s : ExtTreeSet Bytes compare)

/-- The members that are stored. -/
def RawSet.stored : RawSet → List Bytes
  | small v => v
  | large s => s.toList

namespace SetCode

/-- The empty set is small. -/
def new : RawSet := .small []

/-- The number of elements. -/
def len : RawSet → ℕ
  | .small v => v.length
  | .large s => s.size

/-- Whether a small set is full, or `member` too long for it. -/
def needsPromote (s : RawSet) (member : Bytes) : Bool :=
  match s with
  | .small v => v.length ≥ maxListpackEntries || member.length > maxElementBytes
  | .large _ => false

/-- Insert the elements into a table. -/
def promote : RawSet → RawSet
  | .small v => .large (v.foldl (fun s m => s.insert m) ∅)
  | .large s => .large s

/-- One turn of the loop of `sadd`, with the count so far. -/
def addStep (added : ℕ) (s : RawSet) (m : Bytes) : ℕ × RawSet :=
  match if needsPromote s m then promote s else s with
  | .small v => if !v.contains m then (added + 1, .small (v ++ [m])) else (added, .small v)
  | .large t => (if t.contains m then added else added + 1, .large (t.insert m))

/-- Add members one after the other, and count the new ones. -/
def sadd (s : RawSet) (members : List Bytes) : ℕ × RawSet :=
  members.foldl (fun p m => addStep p.1 p.2 m) (0, s)

/-- Whether a member is there. -/
def contains (s : RawSet) (member : Bytes) : Bool :=
  match s with
  | .small v => v.contains member
  | .large s => s.contains member

/-- Drop the members, and count them. -/
def srem (s : RawSet) (members : List Bytes) : ℕ × RawSet :=
  match s with
  | .small v =>
    let kept := v.filter fun m => !members.contains m
    (v.length - kept.length, .small kept)
  | .large t => ((RedisSet.removeAll t members).1, .large (RedisSet.removeAll t members).2)

/-- Remove the first occurrence of a member. -/
def removeOne (s : RawSet) (member : Bytes) : Bool × RawSet :=
  match s with
  | .small v =>
    match v.findIdx? fun m => m = member with
    | some i => (true, .small (swapRemove v i))
    | none => (false, .small v)
  | .large t => (t.contains member, .large (t.erase member))

/-- The elements, as the encoding lists them. -/
def members (env : Env) : RawSet → List Bytes
  | .small v => v
  | .large s => env.memberOrder s.toList

/-- Up to `count` elements of a shuffle, or `-count` draws. -/
def randomMembers (env : Env) (s : RawSet) (count : ℤ) : List Bytes :=
  let members := members env s
  if members = [] then []
  else if 0 ≤ count then (env.shuffle members).take (min (Text.asUsize count) members.length)
  else (List.range (Text.asUsize (Text.wrap (-count)))).map fun i =>
    members.getD (env.draw i members.length) []

/-- Remove the first elements of a shuffle, one after the other. -/
def spop (env : Env) (s : RawSet) (count : ℕ) : List Bytes × RawSet :=
  let members := members env s
  if members = [] then ([], s)
  else
    let popped := (env.shuffle members).take (min count members.length)
    (popped, popped.foldl (fun s m => (removeOne s m).2) s)

end SetCode

/-! ## Operations and what they return -/

/-- An operation, with what the world contributes to it. -/
inductive SetMethod where
  | sadd (members : List Bytes)
  | srem (members : List Bytes)
  | removeOne (member : Bytes)
  | spop (env : Env) (count : ℕ)
  | contains (member : Bytes)
  | len
  | members (env : Env)
  | randomMembers (env : Env) (count : Text.I64)

/-- What an operation returns. -/
inductive SetReturn where
  | count (n : ℕ)
  | flag (b : Bool)
  | listing (l : List Bytes)

namespace SetMethod

/-- The operation as the source computes it. -/
def exec (s : RawSet) : SetMethod → SetReturn × RawSet
  | sadd ms => Prod.map .count id (SetCode.sadd s ms)
  | srem ms => Prod.map .count id (SetCode.srem s ms)
  | removeOne member => Prod.map .flag id (SetCode.removeOne s member)
  | spop env count => Prod.map .listing id (SetCode.spop env s count)
  | contains member => (.flag (SetCode.contains s member), s)
  | len => (.count (SetCode.len s), s)
  | members env => (.listing (SetCode.members env s), s)
  | randomMembers env count => (.listing (SetCode.randomMembers env s count), s)

/-- The operation of the model that the commands use. -/
def apply (s : RedisSet) : SetMethod → SetReturn × RedisSet
  | sadd ms => Prod.map .count id (s.sadd ms)
  | srem ms => Prod.map .count id (s.srem ms)
  | removeOne member => Prod.map .flag id (s.removeOne member)
  | spop env count => Prod.map .listing id (s.spop env count)
  | contains member => (.flag (s.contains member), s)
  | len => (.count s.len, s)
  | members env => (.listing (s.members env), s)
  | randomMembers env count => (.listing (s.randomMembers env count), s)

/-- From the finite set `s` the operation may return `r` and leave `s'`. -/
def Allows (s : Finset Bytes) (op : SetMethod) (r : SetReturn) (s' : Finset Bytes) : Prop :=
  match op with
  | sadd ms => r = .count (ms.toFinset \ s).card ∧ s' = s ∪ ms.toFinset
  | srem ms => r = .count (s ∩ ms.toFinset).card ∧ s' = s \ ms.toFinset
  | removeOne member => r = .flag (member ∈ s) ∧ s' = s.erase member
  | spop _ count =>
    ∃ popped : List Bytes, r = .listing popped ∧ popped.Nodup ∧ popped.toFinset ⊆ s ∧
      popped.length = min count s.card ∧ s' = s \ popped.toFinset
  | contains member => r = .flag (member ∈ s) ∧ s' = s
  | len => r = .count s.card ∧ s' = s
  | members _ => ∃ l : List Bytes, r = .listing l ∧ l.Nodup ∧ l.toFinset = s ∧ s' = s
  | randomMembers _ count =>
    ∃ drawn : List Bytes, r = .listing drawn ∧ drawn.toFinset ⊆ s ∧ s' = s ∧
      (0 ≤ count.1 → drawn.Nodup ∧ drawn.length = min count.1.natAbs s.card) ∧
      (Text.i64Min < count.1 → count.1 < 0 → s.Nonempty → drawn.length = count.1.natAbs)

end SetMethod

/-! ## Each operation is the one of the model -/

/-- The set of the model as the source stores it. -/
def RedisSet.raw : RedisSet → RawSet
  | small v => .small v.1
  | large s => .large s

namespace SetCode

variable {s : RedisSet} {member : Bytes}

/-- Promotion does not need that there are no repetitions. -/
theorem promote_raw : promote s.raw = s.promote.raw := by
  cases s <;> rfl

/-- One step of `sadd` on the vector is `addOne`. -/
theorem addStep_raw (added : ℕ) :
    addStep added s.raw member = (added + (s.addOne member).1, (s.addOne member).2.raw) := by
  have hfit : (if needsPromote s.raw member then promote s.raw else s.raw) =
      (if s.needsPromote member then s.promote else s).raw := by
    have hneeds : needsPromote s.raw member = s.needsPromote member := by
      cases s <;> rfl
    rw [hneeds, promote_raw]
    split <;> rfl
  unfold addStep RedisSet.addOne
  rw [hfit]
  cases if s.needsPromote member then s.promote else s with
  | small v =>
    by_cases hm : member ∈ v.1
    · simp [RedisSet.raw, Members.push, hm]
    · simp [RedisSet.raw, Members.push, hm]
  | large t => cases hm : t.contains member <;> simp [RedisSet.raw, hm]

/-- The loop of `sadd`, by induction on the members. -/
theorem foldl_addStep_raw : ∀ (members : List Bytes) (added : ℕ) (s : RedisSet),
    members.foldl (fun p m => addStep p.1 p.2 m) (added, s.raw) =
      (added + (s.sadd members).1, (s.sadd members).2.raw)
  | [], _, _ => rfl
  | m :: members, added, s => by
    rw [List.foldl_cons, addStep_raw, foldl_addStep_raw members, RedisSet.sadd, Nat.add_assoc]

theorem sadd_raw (members : List Bytes) :
    sadd s.raw members = Prod.map id RedisSet.raw (s.sadd members) := by
  rw [sadd, foldl_addStep_raw, Nat.zero_add]
  rfl

theorem contains_raw : contains s.raw member = s.contains member := by
  cases s <;> rfl

theorem srem_raw (members : List Bytes) :
    srem s.raw members = Prod.map id RedisSet.raw (s.srem members) := by
  cases s <;> rfl

/-- The first index of a member is its only one. -/
theorem removeOne_raw :
    removeOne s.raw member = Prod.map id RedisSet.raw (s.removeOne member) := by
  cases s with
  | small v =>
    unfold removeOne RedisSet.removeOne RedisSet.raw
    by_cases hm : member ∈ v.1
    · have hidx : v.1.findIdx? (fun m => m = member) = some (v.1.idxOf member) := by
        refine List.findIdx?_eq_some_iff_findIdx_eq.mpr ⟨List.idxOf_lt_length_iff.mpr hm, ?_⟩
        refine congrArg (List.findIdx · v.1) (funext fun m => ?_)
        rw [beq_eq_decide]
      have hlt : v.1.idxOf member < v.1.length := List.idxOf_lt_length_iff.mpr hm
      simp [hidx, hlt, Members.removeAt]
    · have hidx : v.1.findIdx? (fun m => m = member) = none := by
        rw [List.findIdx?_eq_none_iff]
        intro m hmem
        exact decide_eq_false fun heq => hm (heq ▸ hmem)
      simp [hidx, hm]
  | large t => rfl

/-- The loop of `spop`, by induction on the members. -/
theorem removeEach_raw : ∀ (members : List Bytes) (s : RedisSet),
    members.foldl (fun s m => (removeOne s m).2) s.raw = (s.removeEach members).raw
  | [], _ => rfl
  | m :: members, s => by
    rw [List.foldl_cons, removeOne_raw, RedisSet.removeEach, ← removeEach_raw members]
    rfl

theorem members_raw (env : Env) : members env s.raw = s.members env := by
  cases s <;> rfl

theorem spop_raw (env : Env) (count : ℕ) :
    spop env s.raw count = Prod.map id RedisSet.raw (s.spop env count) := by
  simp only [spop, RedisSet.spop, members_raw, removeEach_raw]
  split <;> rfl

theorem len_raw : len s.raw = s.len := by
  cases s <;> rfl

theorem randomMembers_raw (env : Env) (count : ℤ) :
    randomMembers env s.raw count = s.randomMembers env count := by
  rw [randomMembers, members_raw, RedisSet.randomMembers]

theorem stored_raw : s.raw.stored = s.members (.plain 0) := by
  cases s <;> rfl

end SetCode

/-- On a set of the model each operation of the source is the one of the model. -/
theorem SetMethod.exec_raw (s : RedisSet) (op : SetMethod) :
    op.exec s.raw = Prod.map id RedisSet.raw (op.apply s) := by
  cases op with
  | sadd ms => rw [exec, SetCode.sadd_raw, apply]; rfl
  | srem ms => rw [exec, SetCode.srem_raw, apply]; rfl
  | removeOne member => rw [exec, SetCode.removeOne_raw, apply]; rfl
  | spop env count => rw [exec, SetCode.spop_raw, apply]; rfl
  | contains member => rw [exec, SetCode.contains_raw, apply]; rfl
  | len => rw [exec, SetCode.len_raw, apply]; rfl
  | members env => rw [exec, SetCode.members_raw, apply]; rfl
  | randomMembers env count => rw [exec, SetCode.randomMembers_raw, apply]; rfl

/-! ## What the operations do to the set -/

/-- The encoded set has the members of `s`. -/
def RedisSet.Holds (t : RedisSet) (s : Finset Bytes) : Prop :=
  ∀ m, m ∈ s ↔ t.contains m = true

namespace RedisSet.Holds

variable {t : RedisSet} {s : Finset Bytes}

/-- A listing in any order has the members of the set, each once. -/
theorem toFinset_members (ht : t.Holds s) (env : Env) : (t.members env).toFinset = s := by
  ext m
  rw [List.mem_toFinset, mem_members, ht m]

/-- The size is the number of members. -/
theorem len_eq (ht : t.Holds s) : t.len = s.card := by
  rw [← length_members (.plain 0), ← ht.toFinset_members (.plain 0),
    List.toFinset_card_of_nodup (nodup_members _ t)]

theorem eq_empty_iff (ht : t.Holds s) {env : Env} : t.members env = [] ↔ s = ∅ := by
  rw [members_eq_nil, ht.len_eq, Finset.card_eq_zero]

/-- Adding a member is insertion. -/
theorem addOne (ht : t.Holds s) (m : Bytes) : (t.addOne m).2.Holds (insert m s) := by
  intro x
  rw [Finset.mem_insert, contains_addOne, ht x]

/-- Adding members is union. -/
theorem sadd (ht : t.Holds s) (ms : List Bytes) : (t.sadd ms).2.Holds (s ∪ ms.toFinset) := by
  intro x
  rw [Finset.mem_union, contains_sadd, List.mem_toFinset, ht x, or_comm]

/-- Members that are repeated or were there do not count as new. -/
theorem sadd_count : ∀ (ms : List Bytes) {t : RedisSet} {s : Finset Bytes}, t.Holds s →
    (t.sadd ms).1 = (ms.toFinset \ s).card
  | [], _, _, _ => by simp [RedisSet.sadd]
  | m :: ms, t, s, ht => by
    rw [RedisSet.sadd, addOne_fst, sadd_count ms (ht.addOne m), List.toFinset_cons,
      Finset.sdiff_insert]
    by_cases hm : m ∈ s
    · rw [if_pos ((ht m).mp hm), Finset.insert_sdiff_of_mem _ hm, Nat.zero_add,
        Finset.erase_eq_of_notMem]
      exact fun hmem => (Finset.mem_sdiff.mp hmem).2 hm
    · rw [if_neg (mt (ht m).mpr hm), Finset.insert_sdiff_of_notMem _ hm,
        ← Finset.card_erase_add_one (Finset.mem_insert_self m _), Finset.erase_insert_eq_erase,
        Nat.add_comm]

/-- Removing members is difference. -/
theorem srem (ht : t.Holds s) (ms : List Bytes) : (t.srem ms).2.Holds (s \ ms.toFinset) := by
  intro x
  rw [Finset.mem_sdiff, contains_srem, List.mem_toFinset, ht x, and_comm]

/-- Members that are repeated or missing do not count as removed. -/
theorem srem_count (ht : t.Holds s) (ms : List Bytes) :
    (t.srem ms).1 = (s ∩ ms.toFinset).card := by
  have hsum := srem_fst_add t ms
  have hsplit := Finset.card_inter_add_card_sdiff s ms.toFinset
  rw [ht.len_eq, (ht.srem ms).len_eq] at hsum
  omega

/-- Removing a member is erasure. -/
theorem removeOne (ht : t.Holds s) (m : Bytes) : (t.removeOne m).2.Holds (s.erase m) := by
  intro x
  rw [Finset.mem_erase, contains_removeOne, ht x]

theorem removeEach (ht : t.Holds s) (ms : List Bytes) :
    (t.removeEach ms).Holds (s \ ms.toFinset) := by
  intro x
  rw [Finset.mem_sdiff, contains_removeEach, List.mem_toFinset, ht x, and_comm]

/-- The first `n` members of a shuffle are distinct members of the set. -/
theorem take_shuffle (ht : t.Holds s) (env : Env) (n : ℕ) :
    ((env.shuffle (t.members env)).take (min n (t.members env).length)).Nodup ∧
      ((env.shuffle (t.members env)).take (min n (t.members env).length)).toFinset ⊆ s ∧
      ((env.shuffle (t.members env)).take (min n (t.members env).length)).length =
        min n s.card := by
  have hperm := env.shuffle_perm (t.members env)
  refine ⟨(hperm.nodup_iff.mpr (nodup_members env t)).sublist (List.take_sublist _ _), ?_, ?_⟩
  · intro m hm
    rw [← ht.toFinset_members env, List.mem_toFinset]
    exact hperm.mem_iff.mp (List.mem_of_mem_take (List.mem_toFinset.mp hm))
  · rw [List.length_take, hperm.length_eq, length_members, ht.len_eq]
    omega

/-- What is drawn are members. -/
theorem randomMembers_subset (ht : t.Holds s) (env : Env) (count : Text.I64) :
    (t.randomMembers env count).toFinset ⊆ s := by
  simp only [RedisSet.randomMembers]
  split
  · simp
  · next hne =>
    split
    · exact (ht.take_shuffle env _).2.1
    · intro m hm
      obtain ⟨i, -, rfl⟩ := List.mem_map.mp (List.mem_toFinset.mp hm)
      have hlt := env.draw_lt i _ (List.length_pos_iff.mpr hne)
      rw [List.getD_eq_getElem _ _ hlt, ← ht.toFinset_members env, List.mem_toFinset]
      exact List.getElem_mem hlt

/-- A positive count draws without repetition. -/
theorem randomMembers_of_nonneg (ht : t.Holds s) (env : Env) (count : Text.I64)
    (hcount : 0 ≤ count.1) : (t.randomMembers env count).Nodup ∧
      (t.randomMembers env count).length = min count.1.natAbs s.card := by
  simp only [RedisSet.randomMembers]
  split
  · next hempty =>
    rw [ht.eq_empty_iff.mp hempty]
    simp
  · rw [Text.asUsize_of_nonneg hcount count.2.2]
    exact ⟨(ht.take_shuffle env _).1, (ht.take_shuffle env _).2.2⟩

/-- Draws with repetition give as many members as asked for. -/
theorem length_randomMembers_of_neg (ht : t.Holds s) (env : Env) (count : Text.I64)
    (hmin : Text.i64Min < count.1) (hneg : count.1 < 0) (hne : s.Nonempty) :
    (t.randomMembers env count).length = count.1.natAbs := by
  have hlimit : Text.asUsize (Text.wrap (-count.1)) = count.1.natAbs := by
    rw [ListOp.wrap_neg hmin hneg, Text.asUsize_of_nonneg (by omega) (ListOp.neg_le_i64Max hmin),
      Int.natAbs_neg]
  simp only [RedisSet.randomMembers]
  rw [if_neg (ht.eq_empty_iff.not.mpr hne.ne_empty), if_neg hneg.not_ge, List.length_map,
    List.length_range, hlimit]

end RedisSet.Holds

namespace SetMethod

/-- What an operation returns and leaves is what a finite set allows. -/
theorem allows_apply {t : RedisSet} {s : Finset Bytes} (ht : t.Holds s) (op : SetMethod) :
    ∃ s', op.Allows s (op.apply t).1 s' ∧ (op.apply t).2.Holds s' := by
  cases op with
  | sadd ms =>
    exact ⟨_, ⟨congrArg SetReturn.count (RedisSet.Holds.sadd_count ms ht), rfl⟩, ht.sadd ms⟩
  | srem ms => exact ⟨_, ⟨congrArg SetReturn.count (ht.srem_count ms), rfl⟩, ht.srem ms⟩
  | removeOne member =>
    refine ⟨_, ⟨congrArg SetReturn.flag ?_, rfl⟩, ht.removeOne member⟩
    simp only [ht member, Bool.decide_eq_true]
    exact RedisSet.removeOne_fst t member
  | spop env count =>
    simp only [apply, RedisSet.spop, ht.eq_empty_iff]
    split
    · next hempty =>
      refine ⟨s, ⟨[], rfl, List.nodup_nil, Finset.empty_subset s, ?_, Finset.sdiff_empty.symm⟩, ht⟩
      rw [hempty, Finset.card_empty, Nat.min_zero, List.length_nil]
    · obtain ⟨hnodup, hsub, hlen⟩ := ht.take_shuffle env count
      exact ⟨_, ⟨_, rfl, hnodup, hsub, hlen, rfl⟩, ht.removeEach _⟩
  | contains member =>
    refine ⟨s, ⟨congrArg SetReturn.flag ?_, rfl⟩, ht⟩
    simp only [ht member, Bool.decide_eq_true]
  | len => exact ⟨s, ⟨congrArg SetReturn.count ht.len_eq, rfl⟩, ht⟩
  | members env =>
    exact ⟨s, ⟨_, rfl, RedisSet.nodup_members env t, ht.toFinset_members env, rfl⟩, ht⟩
  | randomMembers env count =>
    exact ⟨s, ⟨_, rfl, ht.randomMembers_subset env count, rfl, ht.randomMembers_of_nonneg env count,
      ht.length_randomMembers_of_neg env count⟩, ht⟩

/-! ## Runs -/

/-- The operations one after the other, with what each returns. -/
def run (s : RawSet) : List SetMethod → List SetReturn × RawSet
  | [] => ([], s)
  | op :: ops =>
    let p := op.exec s
    (p.1 :: (run p.2 ops).1, (run p.2 ops).2)

/-- From the finite set `s` the operations may return `rs` one after the other, and leave
`s'` at the end. -/
def AllowsRun (s : Finset Bytes) : List SetMethod → List SetReturn → Finset Bytes → Prop
  | [], rs, s' => rs = [] ∧ s' = s
  | op :: ops, rs, s' => ∃ r rest t, rs = r :: rest ∧ op.Allows s r t ∧ AllowsRun t ops rest s'

/-- A run on a set is one that the abstract set allows, by induction on the operations. -/
theorem allowsRun_raw : ∀ (ops : List SetMethod) {t : RedisSet} {s : Finset Bytes}, t.Holds s →
    ∃ (t' : RedisSet) (s' : Finset Bytes), (run t.raw ops).2 = t'.raw ∧ t'.Holds s' ∧
      AllowsRun s ops (run t.raw ops).1 s'
  | [], t, s, ht => ⟨t, s, rfl, ht, rfl, rfl⟩
  | op :: ops, t, s, ht => by
    obtain ⟨u, hallows, hu⟩ := allows_apply ht op
    obtain ⟨t', s', hstate, hholds, hrest⟩ := allowsRun_raw ops hu
    simp only [run, exec_raw, Prod.map_fst, Prod.map_snd]
    exact ⟨t', s', hstate, hholds, _, _, u, rfl, hallows, hrest⟩

/-- A set that starts empty returns from any operations, with any shuffles and orders of the
listings, what a finite set allows, and stores each of its members once after them. -/
theorem encodings_hold_set (ops : List SetMethod) :
    ∃ s, AllowsRun ∅ ops (run SetCode.new ops).1 s ∧ (run SetCode.new ops).2.stored.Nodup ∧
      (run SetCode.new ops).2.stored.toFinset = s := by
  have hnew : RedisSet.new.Holds ∅ := fun m => by simp
  obtain ⟨t, s, hstate, hholds, hrets⟩ := allowsRun_raw ops hnew
  change (run SetCode.new ops).2 = t.raw at hstate
  rw [hstate, SetCode.stored_raw]
  exact ⟨s, hrets, RedisSet.nodup_members _ t, hholds.toFinset_members _⟩

end SetMethod

end LoonyRedis
