import LoonyRedis.Determinism
import LoonyRedis.Unchanged

/-!
# Which writes reach the append-only file

Each handler logs by itself, and many do not. `Request.Covered` is the condition, for each
request, that a change of the store leaves a record : nothing for the handlers that log
whatever they change, and otherwise that there is nothing to change.
`changes_recorded_iff` is the equivalence for every data command on a single node. It is about
calls that return : when a command panics instead is in `Panics`.
-/

namespace LoonyRedis

open Std

/-! ## Requests -/

/-- The counter that a field holds is written as the field has it after the addition, or
cannot be added to. -/
def RedisHash.Counts (h : RedisHash) (field : Bytes) (delta : Text.I64) : Prop :=
  ∃ b, h.get field = some b ∧ ∀ n, Store.parseInt b = some n →
    ∀ r, Text.checkedAdd n delta = some r → b = Utf8.toBytes (toString r.1)

/-- The same for doubles. -/
def RedisHash.CountsFloat (h : RedisHash) (field : Bytes) (delta : F64) : Prop :=
  ∃ b, h.get field = some b ∧ ∀ x, Store.parseFloat b = some x →
    b = Utf8.toBytes (x.add delta).display

/-- A set operation fails, or the destination has its result already. -/
def Store.CombineKept (op : SetOp) (dst : String) (keys : List String) (s : Store) : Prop :=
  (∃ k ∈ keys, s.NotSet k) ∨ ∃ e t, s[dst]? = some e ∧ Kind.set.view e.value = some t ∧
    ∀ m, t.contains m = true ↔ op.Selects s keys m

/-- `ZADD` on a missing key reads no pair, or adds a member, and on a sorted set it counts
what it changes, or changes nothing. -/
def Store.ZaddCovered (key : String) (flags : ZaddFlags) (steps : List ZaddStep) (s : Store) :
    Prop :=
  (s[key]? = none → ZaddStep.applied steps = [] ∨
    steps.any ZaddStep.isBad = false ∧ ZSet.new.Gains flags (ZaddStep.applied steps)) ∧
  s.IfHeld .zset key fun z => z.KeepsScores flags (ZaddStep.applied steps) ∨
    steps.any ZaddStep.isBad = false ∧ (flags.ch = true ∨ z.Gains flags (ZaddStep.applied steps))

namespace Request

/-- If a request changes what the store contains, it is logged. -/
def Covered (s : Store) : Request → Prop
  | flush => s = ∅
  | pop _ key _ _ => s.IfHeld .list key fun l => l.toVec = []
  | lset key index val => s.IfHeld .list key fun l =>
      ∀ i, Store.listIndex l index = some i → l.toVec[i]? = some val
  | linsert key _ pivot _ => s.IfHeld .list key fun l => pivot ∉ l.toVec
  | lrem key _ val => s.IfHeld .list key fun l => val ∉ l.toVec
  | ltrim key start stop => s.IfHeld .list key fun l =>
      l.toVec = [] ∨ l.TrimsNothing start stop
  | lmove src dst fromLeft toLeft => s.IfHeld .list src fun l =>
      l.toVec = [] ∨ src = dst ∧ (fromLeft = toLeft ∨ l.Constant)
  | hdel key fields => s.IfHeld .hash key fun h => ∀ f ∈ fields, h.get f = none
  | hsetnx key field _ => s[key]? ≠ none ∧ s.IfHeld .hash key fun h => h.get field ≠ none
  | hincrby key field delta => s[key]? ≠ none ∧ s.IfHeld .hash key fun h => h.Counts field delta
  | hincrbyfloat key field delta =>
    s[key]? ≠ none ∧ s.IfHeld .hash key fun h => h.CountsFloat field delta
  | sadd key members => members ≠ [] ∨ s[key]? ≠ none
  | srem key members => s.IfHeld .set key fun t => ∀ m ∈ members, t.contains m = false
  | smove src dst member => s.IfHeld .set src fun t => t.contains member = true → src = dst
  | spop key count => s.IfHeld .set key fun t => t.len = 0 ∨ count = some 0
  | combineStore op dst ks => s.CombineKept op dst ks
  | zadd key flags steps => s.ZaddCovered key flags steps
  | zincrby key delta member => s[key]? ≠ none ∧
      s.IfHeld .zset key fun z => ∃ x, z.scores[member]? = some x ∧ x.add delta = x
  | zrem key members => s.IfHeld .zset key fun z => ∀ m ∈ members, z.scores[m]? = none
  | zpopmin key count => s.IfHeld .zset key fun z => count = 0 ∨ z.len = 0
  | zpopmax key count => s.IfHeld .zset key fun z => count = 0 ∨ z.len = 0
  | zremrangebyrank key start stop =>
    s.IfHeld .zset key fun z => Store.EmptyWindow z.len start stop
  | zremrangebyscore key lo hi => s.IfHeld .zset key fun z => z.inRange lo hi = []
  | _ => True

end Request

/-- A change of the contents leaves a record. -/
def Outcome.Recorded (s : Store) (o : Outcome) : Prop :=
  o.store.contents ≠ s.contents → o.log ≠ []

namespace Request

section Outcome

variable {α β : Type} {K : Kind α} {key : String} {s : Store} {dflt : β} {init : α}
  {f : α → Except String β × α} {fmt : β → Frame} {log : β → List Record}

/-- A call that changes no contents needs no record. -/
theorem recorded_of_contents {o : Outcome} (h : o.store.contents = s.contents) :
    o.Recorded s := fun hne => absurd h hne

/-- A call that is not logged must not change anything. -/
theorem recorded_change {r : Except String β × Store} :
    (Outcome.change r fmt).Recorded s ↔ r.2.contents = s.contents := by
  rw [Outcome.Recorded, log_change, Outcome.change, store_of]
  simp

/-- An unrecorded update is covered if and only if it keeps the value. -/
theorem recorded_update : (Outcome.change (Store.update K key dflt f s) fmt).Recorded s ↔
    s.IfHeld K key fun a => K.Same (f a).2 a :=
  recorded_change.trans Store.contents_update_eq_iff

/-- An unrecorded upsert is covered if and only if it keeps a value that is held. -/
theorem recorded_upsert : (Outcome.change (Store.upsert K key init f s) fmt).Recorded s ↔
    s[key]? ≠ none ∧ s.IfHeld K key fun a => K.Same (f a).2 a :=
  recorded_change.trans Store.contents_upsert_eq_iff

/-- A call that is logged when it succeeds, and changes nothing when it does not. -/
theorem recorded_logged {o : Op β} (ho : o.Atomic) (hlog : ∀ b, log b ≠ []) :
    (Outcome.of (o s) fmt log).Recorded s := by
  intro hne
  rw [store_of] at hne
  cases hr : (o s).1 with
  | ok b =>
    rw [Outcome.of, hr]
    exact hlog b
  | error e =>
    rw [ho s e hr] at hne
    exact absurd rfl hne

end Outcome

theorem ifHeld_congr {α : Type} {K : Kind α} {key : String} {s : Store} {P Q : α → Prop}
    (h : ∀ a, P a ↔ Q a) : s.IfHeld K key P ↔ s.IfHeld K key Q := by
  simp only [Store.IfHeld, h]

variable {ctx : CommandContext} {env : Env} {s : Store}

/-! ### Deletions and additions -/

/-- `FLUSHALL` is covered on the empty store only. -/
theorem recorded_flush : (flush.run ctx env s).Recorded s ↔ s = ∅ := by
  have hlog : (flush.run ctx env s).log = [] := rfl
  rw [Outcome.Recorded, hlog]
  constructor
  · intro h
    have heq : Store.contents ∅ = s.contents := not_not.mp fun hne => h hne rfl
    ext k : 1
    have hk := congrFun heq k
    simp only [Store.contents, ExtTreeMap.getElem?_empty, Option.map_none] at hk
    rw [Option.map_eq_none_iff.mp hk.symm, ExtTreeMap.getElem?_empty]
  · rintro rfl hne
    exact absurd rfl hne

/-- A deletion that finds no key changes nothing. -/
theorem del_of_fst : ∀ {ks : List String} {s : Store}, (s.del ks).1 = 0 → (s.del ks).2 = s
  | [], _, _ => rfl
  | k :: ks, s, h => by
    obtain ⟨hk, hrest⟩ := Nat.add_eq_zero_iff.mp h
    have herase : s.erase k = s := by
      ext k' : 1
      rw [FinMap.getElem?_erase]
      split
      · next heq =>
        subst heq
        have hnot : ¬ s.contains k = true := fun hc => by simp [hc] at hk
        rw [ExtTreeMap.contains_eq_isSome_getElem?] at hnot
        simpa using hnot
      · rfl
    rw [herase] at hrest
    rw [Store.del, herase]
    exact del_of_fst hrest

/-- `SADD` is covered if and only if it names members or the key is held. -/
theorem recorded_sadd {key : String} {members : List Bytes} :
    ((sadd key members).run ctx env s).Recorded s ↔ members ≠ [] ∨ s[key]? ≠ none := by
  have hlog : ((sadd key members).run ctx env s).log ≠ [] ↔
      ∃ n, 0 < n ∧ (s.sadd key members).1 = .ok n := by
    rw [run, Outcome.of]
    cases (s.sadd key members).1 with
    | error e => simp
    | ok n => simp
  rw [Outcome.Recorded, hlog, run, store_of]
  cases hs : s[key]? with
  | none =>
    have hadd : s.sadd key members = _ := Store.upsert_none hs
    rw [hadd, or_iff_left fun h => h rfl]
    constructor
    · rintro h rfl
      obtain ⟨n, hn, hok⟩ := h (Store.contents_insert_of_none hs)
      obtain rfl : 0 = n := Except.ok.inj hok
      exact absurd hn (lt_irrefl 0)
    · intro hne _
      exact ⟨_, Nat.pos_of_ne_zero (RedisSet.sadd_fst_new_ne_zero hne), rfl⟩
  | some e =>
    refine iff_of_true (fun hne => ?_) (Or.inr (Option.some_ne_none e))
    rw [Store.sadd, Ne, Store.contents_upsert_eq_iff, hs] at hne
    cases hv : Kind.set.view e.value with
    | none => exact absurd ⟨Option.some_ne_none e, Store.ifHeld_of_wrong hs hv⟩ hne
    | some t =>
      rw [Store.ifHeld_iff hs hv, Kind.same_set] at hne
      have hadd : s.sadd key members = _ := Store.upsert_some hs hv
      rw [hadd]
      refine ⟨_, Nat.pos_of_ne_zero fun hzero => hne ⟨Option.some_ne_none e, ?_⟩, rfl⟩
      exact RedisSet.contains_of_sadd_fst hzero

/-! ### Counters of a hash -/

/-- `HINCRBY` is covered if and only if it leaves the field as it is. -/
theorem recorded_hincrby {key : String} {field : Bytes} {delta : Text.I64} :
    ((hincrby key field delta).run ctx env s).Recorded s ↔
      s[key]? ≠ none ∧ s.IfHeld .hash key fun h => h.Counts field delta := by
  refine recorded_upsert.trans (and_congr_right fun _ => ifHeld_congr fun h => ?_)
  rw [Kind.same_hash, RedisHash.Counts]
  cases hget : h.get field with
  | none =>
    obtain ⟨z, hz, hadd⟩ := Store.checkedAdd_zero delta
    simp [hz, hadd, RedisHash.get_hset_eq_iff, hget]
  | some b =>
    simp only [Option.some.injEq, exists_eq_left']
    cases Store.parseInt b with
    | none => simp
    | some n =>
      simp only [Option.some.injEq, forall_eq']
      cases Text.checkedAdd n delta with
      | none => simp
      | some r => simp only [RedisHash.get_hset_eq_iff, hget, Option.some.injEq, forall_eq']

/-- `HINCRBYFLOAT` is covered if and only if it leaves the field as it is. -/
theorem recorded_hincrbyfloat {key : String} {field : Bytes} {delta : F64} :
    ((hincrbyfloat key field delta).run ctx env s).Recorded s ↔
      s[key]? ≠ none ∧ s.IfHeld .hash key fun h => h.CountsFloat field delta := by
  refine recorded_upsert.trans (and_congr_right fun _ => ifHeld_congr fun h => ?_)
  rw [Kind.same_hash, RedisHash.CountsFloat]
  cases hget : h.get field with
  | none => simp [RedisHash.get_hset_eq_iff, hget]
  | some b =>
    simp only [Option.some.injEq, exists_eq_left']
    cases Store.parseFloat b with
    | none => simp
    | some x => simp only [RedisHash.get_hset_eq_iff, hget, Option.some.injEq, forall_eq']

/-! ### Moves -/

/-- `LMOVE` is covered if and only if it leaves both lists as they are. -/
theorem recorded_lmove {src dst : String} {fromLeft toLeft : Bool} :
    ((lmove src dst fromLeft toLeft).run ctx env s).Recorded s ↔
      s.IfHeld .list src fun l =>
        l.toVec = [] ∨ src = dst ∧ (fromLeft = toLeft ∨ l.Constant) := by
  refine recorded_change.trans ((Store.contents_move_eq_iff fun l => ?_).trans
    (ifHeld_congr fun l => ?_))
  · rw [Kind.same_list]
    cases fromLeft with
    | true => exact RedisList.pops_front.toVec_eq_iff
    | false => exact RedisList.pops_back.toVec_eq_iff
  · cases hb : (if fromLeft then l.popFront else l.popBack).1 with
    | none =>
      refine iff_of_true (fun b hb' => by cases hb') (Or.inl ?_)
      cases fromLeft with
      | true => exact (RedisList.pops_front.none_iff l).mp hb
      | false => exact (RedisList.pops_back.none_iff l).mp hb
    | some b =>
      have hne : l.toVec ≠ [] := by
        intro hnil
        cases fromLeft <;> simp [RedisList.popFront, RedisList.popBack, hnil] at hb
      simp only [Option.some.injEq, forall_eq', or_iff_right hne]
      exact and_congr_right fun _ =>
        Kind.same_list.trans (RedisList.toVec_rotate_eq_iff hb)

/-- `SMOVE` is covered if it moves nothing, or to the same set. -/
theorem recorded_smove {src dst : String} {member : Bytes} :
    ((smove src dst member).run ctx env s).Recorded s ↔
      s.IfHeld .set src fun t => t.contains member = true → src = dst := by
  refine recorded_change.trans ((Store.contents_move_eq_iff fun t => ?_).trans
    (ifHeld_congr fun t => ?_))
  · rw [Kind.same_set, RedisSet.contains_removeOne_eq_iff, RedisSet.removeOne_fst]
    simp
  · simp only [RedisSet.removeOne_fst]
    by_cases hm : t.contains member = true
    · simp only [hm, if_true, Option.some.injEq, forall_eq', true_implies]
      refine and_iff_left (Kind.same_set.mpr (funext fun m => ?_))
      rw [Bool.eq_iff_iff, RedisSet.contains_sadd, RedisSet.contains_removeOne,
        List.mem_singleton]
      by_cases hmm : m = member <;> simp [hmm, hm]
    · simp [hm]

/-! ### Set operations -/

/-- A stored combination is covered if and only if the destination keeps its value. -/
theorem recorded_combineStore {op : SetOp} {dst : String} {ks : List String} :
    ((combineStore op dst ks).run ctx env s).Recorded s ↔ s.CombineKept op dst ks := by
  refine recorded_change.trans ?_
  unfold Store.combineStore
  rcases Store.combine_eq op env ks s with ⟨hnot, herr⟩ | ⟨hall, r, hr, hmem⟩
  · rw [herr]
    exact iff_of_true rfl (Or.inl hnot)
  · rw [hr, Store.CombineKept, or_iff_right fun ⟨k, hk, hnot⟩ => hall k hk hnot,
      Store.contents_insert_eq_iff, Store.contents, Option.map_eq_some_iff]
    have hresult (m : Bytes) : (RedisSet.new.sadd (env.memberOrder r.toList)).2.contains m = true ↔
        op.Selects s ks m := by
      rw [RedisSet.contains_sadd, (env.memberOrder_perm _).mem_iff, ExtTreeSet.mem_toList, hmem]
      simp
    refine exists_congr fun e => ?_
    rw [exists_and_left]
    refine and_congr_right fun he => ?_
    cases hv : e.value with
    | set t =>
      simp only [Kind.set, Value.content, Content.set.injEq, Option.some.injEq, exists_eq_left',
        ← hresult]
      exact funext_iff.trans (forall_congr' fun m => Bool.eq_iff_iff)
    | string | list | hash | zset => simp [Kind.set, Value.content]

/-! ### Sorted sets -/

/-- `ZADD` is recorded if and only if the count it answers is positive. -/
theorem log_zadd_ne_nil {key : String} {flags : ZaddFlags} {steps : List ZaddStep} :
    ((zadd key flags steps).run ctx env s).log ≠ [] ↔
      ∃ r, (zaddLoop key flags steps s).1 = .ok r ∧ 0 < if flags.ch then r.2 else r.1 := by
  rw [run, Outcome.of]
  cases (zaddLoop key flags steps s).1 with
  | error e => simp
  | ok r => simp

/-- On a sorted set `ZADD` is logged if no score is bad and the count is not zero. -/
theorem zaddLoop_logs_iff {key : String} {flags : ZaddFlags} {steps : List ZaddStep} {s : Store}
    {e : Entry} {z : ZSet} (hs : s[key]? = some e) (hv : Kind.zset.view e.value = some z) :
    (∃ r, (zaddLoop key flags steps s).1 = .ok r ∧ 0 < if flags.ch then r.2 else r.1) ↔
      steps.any ZaddStep.isBad = false ∧
        0 < if flags.ch then (ZSet.zaddCounts flags (ZaddStep.applied steps) z).2
          else (ZSet.zaddCounts flags (ZaddStep.applied steps) z).1 := by
  cases hbad : steps.any ZaddStep.isBad with
  | true =>
    have hfail := (zaddLoop_some flags steps hs hv).2.mpr hbad
    refine iff_of_false (fun ⟨r, hr, _⟩ => ?_) (by simp)
    rw [hr] at hfail
    cases hfail
  | false =>
    rw [zaddLoop_fst flags steps hs hv hbad]
    simp

/-- When `ZADD` is covered. -/
theorem recorded_zadd {key : String} {flags : ZaddFlags} {steps : List ZaddStep} :
    ((zadd key flags steps).run ctx env s).Recorded s ↔ s.ZaddCovered key flags steps := by
  rw [Outcome.Recorded, log_zadd_ne_nil, Store.ZaddCovered, run, store_of]
  cases hs : s[key]? with
  | none =>
    rw [and_iff_left (Store.ifHeld_of_none hs), forall_prop_of_true rfl]
    obtain ⟨hnil, hcons, -⟩ := zaddLoop_none flags hs steps
    by_cases happlied : ZaddStep.applied steps = []
    · rw [hnil happlied]
      exact iff_of_true (fun h => absurd rfl h) (Or.inl happlied)
    · have hne := Store.contents_insert_of_none (e := ⟨Kind.zset.wrap
        (ZSet.new.zaddAll flags (ZaddStep.applied steps)), none⟩) hs
      rw [or_iff_right happlied, hcons happlied, forall_prop_of_true hne,
        ← zaddLoop_insert_new flags hs steps happlied,
        zaddLoop_logs_iff FinMap.getElem?_insert_self (Kind.zset.view_wrap _)]
      refine and_congr_right fun _ => ?_
      by_cases hgains : ZSet.new.Gains flags (ZaddStep.applied steps)
      · have hpos := (ZSet.zaddCounts_fst_pos flags).mpr hgains
        have hle := ZSet.zaddCounts_fst_le flags (ZaddStep.applied steps) ZSet.new
        refine iff_of_true ?_ hgains
        split <;> omega
      · rw [ZSet.zaddCounts_new flags hgains]
        exact iff_of_false (by simp) hgains
  | some e =>
    rw [and_iff_right (fun h => by cases h)]
    cases hv : Kind.zset.view e.value with
    | none =>
      rw [zaddLoop_wrong flags hs hv]
      exact iff_of_true (fun h => absurd rfl h) (Store.ifHeld_of_wrong hs hv)
    | some z =>
      rw [(zaddLoop_some flags steps hs hv).1, Store.ifHeld_iff hs hv, Ne,
        Store.contents_insert_wrap_eq_iff hs hv, Kind.same_zset, ZSet.zaddAll_eq_iff_keepsScores,
        zaddLoop_logs_iff hs hv]
      by_cases hkeeps : z.KeepsScores flags (ZaddStep.applied steps)
      · exact iff_of_true (fun h => absurd hkeeps h) (Or.inl hkeeps)
      · rw [or_iff_right hkeeps, forall_prop_of_true hkeeps]
        refine and_congr_right fun _ => ?_
        cases hch : flags.ch with
        | true =>
          refine iff_of_true (Nat.pos_of_ne_zero fun hzero => hkeeps ?_) (Or.inl rfl)
          exact (ZSet.zaddAll_eq_iff_keepsScores flags).mp (ZSet.zaddAll_of_zaddCounts flags hzero)
        | false => simpa using ZSet.zaddCounts_fst_pos flags

/-! ### All requests -/

/-- What is no write is covered. -/
theorem covered_of_not_isWrite {r : Request} (hr : r.isWrite = false) : r.Covered s := by
  cases r <;> trivial

/-- A request that changes the store is logged exactly under its condition. -/
theorem recorded_run_iff (hs : s.NoExpiry) (r : Request) :
    (r.run ctx env s).Recorded s ↔ r.Covered s := by
  cases hr : r.isWrite with
  | false =>
    refine iff_of_true (recorded_of_contents ?_) (covered_of_not_isWrite hr)
    rw [run_store_of_not_isWrite hr hs]
  | true =>
    cases r with
    | del ks =>
      refine iff_of_true (fun hne => ?_) trivial
      have hpos : 0 < (s.del ks).1 :=
        Nat.pos_of_ne_zero fun hzero => hne (congrArg Store.contents (del_of_fst hzero))
      simp [run, hpos]
    | expire key ttl =>
      exact iff_of_true (recorded_of_contents (Store.contents_expire env.now key ttl s)) trivial
    | persist key =>
      refine iff_of_true (recorded_of_contents ?_) trivial
      simp only [run, Store.persist_of_noExpiry hs]
    | flush => exact recorded_flush
    | set key val ttl nx xx =>
      refine iff_of_true (fun hne => ?_) trivial
      simp only [run] at hne ⊢
      split at hne
      · exact absurd rfl hne
      · next hnx =>
        rw [if_neg hnx]
        split at hne
        · exact absurd rfl hne
        · next hxx =>
          rw [if_neg hxx]
          exact List.cons_ne_nil _ _
    | setnx key val =>
      refine iff_of_true (fun hne => ?_) trivial
      simp only [run] at hne ⊢
      split at hne
      · exact absurd rfl hne
      · next hnx =>
        rw [if_neg hnx]
        exact List.cons_ne_nil _ _
    | mset pairs =>
      refine iff_of_true (fun hne => ?_) trivial
      cases pairs with
      | nil => exact absurd rfl hne
      | cons p pairs => exact List.cons_ne_nil _ _
    | hset key pairs =>
      refine iff_of_true ?_ trivial
      cases pairs with
      | nil => exact recorded_of_contents rfl
      | cons p pairs =>
        exact recorded_logged (atomic_hsetLoop key (p :: pairs)) fun _ => List.cons_ne_nil _ _
    | getset key val => exact iff_of_true (fun _ => List.cons_ne_nil _ _) trivial
    | append key suffix =>
      exact iff_of_true
        (recorded_logged Store.atomic_upsert_done fun _ => List.cons_ne_nil _ _) trivial
    | incrby key delta record =>
      exact iff_of_true
        (recorded_logged (Store.atomic_incrby delta) fun _ => List.cons_ne_nil _ _) trivial
    | push left key values =>
      refine iff_of_true ?_ trivial
      cases left <;>
        exact recorded_logged Store.atomic_upsert_done fun _ => List.cons_ne_nil _ _
    | pop left key count withCount =>
      have hpos : 0 < max count 1 := by omega
      cases left with
      | true =>
        refine recorded_update.trans (ifHeld_congr fun l => Kind.same_list.trans ?_)
        exact RedisList.toVec_popN_eq_iff RedisList.pops_front hpos
      | false =>
        refine recorded_update.trans (ifHeld_congr fun l => Kind.same_list.trans ?_)
        exact RedisList.toVec_popN_eq_iff RedisList.pops_back hpos
    | lset key index val =>
      refine recorded_update.trans (ifHeld_congr fun l => Kind.same_list.trans ?_)
      cases hidx : Store.listIndex l index with
      | none => simp
      | some i =>
        simp only [Option.some.injEq, forall_eq']
        exact RedisList.toVec_setIndex_eq_iff (Store.lt_of_listIndex hidx)
    | linsert key before pivot val =>
      refine recorded_update.trans (ifHeld_congr fun l => Kind.same_list.trans ?_)
      cases before with
      | true => exact RedisList.toVec_insertAt_eq_iff (Nat.zero_le 1)
      | false => exact RedisList.toVec_insertAt_eq_iff le_rfl
    | lrem key count val =>
      exact recorded_update.trans
        (ifHeld_congr fun l => Kind.same_list.trans RedisList.toVec_lrem_eq_iff)
    | ltrim key start stop =>
      exact recorded_update.trans
        (ifHeld_congr fun l => Kind.same_list.trans RedisList.toVec_ltrim_eq_iff)
    | lmove => exact recorded_lmove
    | hdel key fields =>
      exact recorded_update.trans
        (ifHeld_congr fun h => Kind.same_hash.trans RedisHash.get_hdel_eq_iff)
    | hsetnx key field val =>
      exact recorded_upsert.trans (and_congr_right fun _ =>
        ifHeld_congr fun h => Kind.same_hash.trans RedisHash.get_hsetnx_eq_iff)
    | hincrby => exact recorded_hincrby
    | hincrbyfloat => exact recorded_hincrbyfloat
    | sadd => exact recorded_sadd
    | srem key members =>
      exact recorded_update.trans
        (ifHeld_congr fun t => Kind.same_set.trans RedisSet.contains_srem_eq_iff)
    | smove => exact recorded_smove
    | spop key count =>
      refine recorded_update.trans (ifHeld_congr fun t => Kind.same_set.trans ?_)
      rw [Store.done, RedisSet.contains_spop_eq_iff]
      cases count <;> simp
    | combineStore => exact recorded_combineStore
    | zadd => exact recorded_zadd
    | zincrby key delta member =>
      exact recorded_upsert.trans (and_congr_right fun _ =>
        ifHeld_congr fun z => Kind.same_zset.trans ZSet.zincrby_eq_iff)
    | zrem key members =>
      exact recorded_update.trans (ifHeld_congr fun z => Kind.same_zset.trans ZSet.zrem_eq_iff)
    | zpopmin key count =>
      exact recorded_update.trans (ifHeld_congr fun z => Kind.same_zset.trans ZSet.zpopmin_eq_iff)
    | zpopmax key count =>
      exact recorded_update.trans (ifHeld_congr fun z => Kind.same_zset.trans ZSet.zpopmax_eq_iff)
    | zremrangebyrank key start stop =>
      exact recorded_update.trans
        (ifHeld_congr fun z => Kind.same_zset.trans ZSet.zremrangebyrank_eq_iff)
    | zremrangebyscore key lo hi =>
      exact recorded_update.trans
        (ifHeld_congr fun z => Kind.same_zset.trans ZSet.zremrangebyscore_eq_iff)
    | _ => cases hr

end Request

/-! ## Frames -/

/-- On a single node, a data command that changes what a store without expiries contains
appends a record to the append-only file exactly if its request is covered. -/
theorem changes_recorded_iff {ctx : CommandContext} (hraft : ctx.raft = none)
    (hcluster : ctx.cluster = none) {frame : Frame} (hdata : isData frame = true)
    (elsewhere : Route → Store → Outcome) (env : Env) {s : Store} (hs : s.NoExpiry) :
    ((execute ctx elsewhere env frame s).store.contents ≠ s.contents →
      (execute ctx elsewhere env frame s).log ≠ []) ↔
    ∀ r, requestOf ctx frame = some r → r.Covered s := by
  rcases execute_of_isData hraft hcluster hdata elsewhere env with ⟨r, hr, hrun⟩ | ⟨hnone, f, hf⟩
  · rw [hrun, hr]
    simp only [Option.some.injEq, forall_eq']
    exact Request.recorded_run_iff hs r
  · simp [hf, hnone]

section Unlogged

theorem noExpiry_mixedStore : mixedStore.NoExpiry :=
  (((Store.same_empty.insert "l" rfl).insert "t" rfl).insert "k" rfl).left

/-- `LPOP` takes the element of the list and `ZINCRBY` creates a key, without a record. -/
theorem unlogged_changes : mixedStore.NoExpiry ∧
    ((serveMixed ["LPOP", "l"]).store.contents ≠ mixedStore.contents ∧
      (serveMixed ["LPOP", "l"]).log = []) ∧
    (serveMixed ["ZINCRBY", "z", "1", "a"]).store.contents ≠ mixedStore.contents ∧
      (serveMixed ["ZINCRBY", "z", "1", "a"]).log = [] := by
  refine ⟨noExpiry_mixedStore, ⟨fun h => ?_, by decide⟩, fun h => ?_, by decide⟩
  · have hlist := congrArg (fun c : String → Option Content => Content.lengthOf (c "l")) h
    exact absurd hlist (by decide)
  · have hkey := congrArg (fun c : String → Option Content => (c "z").isSome) h
    exact absurd hkey (by decide)

/-- A test for a request that pushes. -/
def asksPush : Option Request → Bool
  | some (.push _ _ _) => true
  | _ => false

/-- `RPUSH` changes the list and is logged. -/
theorem rpush_recorded :
    (serveMixed ["RPUSH", "l", "y"]).store.contents ≠ mixedStore.contents ∧
      (serveMixed ["RPUSH", "l", "y"]).log ≠ [] := by
  have hne : (serveMixed ["RPUSH", "l", "y"]).store.contents ≠ mixedStore.contents := by
    intro h
    have hlist := congrArg (fun c : String → Option Content => Content.lengthOf (c "l")) h
    exact absurd hlist (by decide)
  refine ⟨hne, (@changes_recorded_iff .standalone rfl rfl _ (by decide) _ _ _
    noExpiry_mixedStore).mpr (fun r hr => ?_) hne⟩
  have hpush : asksPush (requestOf .standalone (.command ["RPUSH", "l", "y"])) = true := by decide
  rw [hr] at hpush
  cases r with
  | push => trivial
  | _ => cases hpush

end Unlogged

end LoonyRedis
