import LoonyRedis.Contents
import LoonyRedis.Expiry

/-!
# Which commands notice expired keys

`Request.Unaffected` is the condition, for each request, that the expired entries of a store
do not show : nothing for the methods that look at the time, and otherwise that the key has
not expired, or that what is stored there gives the answer of a missing key.
`expired_keys_absent_iff` is the equivalence for every data command on a single node. It is about
calls that return : when a command panics instead is in `Panics`.
-/

namespace LoonyRedis

open Std

/-! ## Requests -/

namespace Store

/-- Whether `m` is in the set at `key`. -/
def MemberAt (s : Store) (key : String) (m : Bytes) : Prop :=
  ∃ e t, s[key]? = some e ∧ Kind.set.view e.value = some t ∧ t.contains m = true

/-- `key` holds another type than a set. -/
def NotSet (s : Store) (key : String) : Prop :=
  ∃ e, s[key]? = some e ∧ Kind.set.view e.value = none

/-- A window of positions with nothing in it. -/
def EmptyWindow (len : ℕ) (start stop : ℤ) : Prop :=
  min (Text.window len start stop).2 len ≤ (Text.window len start stop).1

end Store

/-- Whether `m` is in the combination of the sets at `keys`. -/
def SetOp.Selects (s : Store) (keys : List String) (m : Bytes) : SetOp → Prop
  | union => ∃ k ∈ keys, s.MemberAt k m
  | inter => keys ≠ [] ∧ ∀ k ∈ keys, s.MemberAt k m
  | diff => ∃ k ks, keys = k :: ks ∧ s.MemberAt k m ∧ ∀ k' ∈ ks, ¬ s.MemberAt k' m

/-- Expired operands of a set operation go unnoticed : a live one is of another type
anyway, or all are sets and the expired ones do not change which members are selected. -/
def Store.CombineQuiet (now : ℕ) (op : SetOp) (keys : List String) (s : Store) : Prop :=
  (∃ k ∈ keys, (s.live now).NotSet k) ∨
    (∀ k ∈ keys, ¬ s.NotSet k) ∧ ∀ m, op.Selects s keys m ↔ op.Selects (s.live now) keys m

namespace Request

/-- The entries of `s` that have expired do not show in a request. -/
def Unaffected (now : ℕ) (s : Store) : Request → Prop
  | del ks => ∀ k ∈ ks, s.Fresh now k
  | persist key => s.Fresh now key
  | dbsize => ∀ k, s.Fresh now k
  | append key _ => s.Fresh now key
  | incrby key _ _ => s.Fresh now key
  | push _ key _ => s.Fresh now key
  | pop _ key _ _ => s.Quiet now .list key fun l => l.toVec = []
  | llen key => s.Quiet now .list key fun l => l.toVec = []
  | lrange key start stop => s.Quiet now .list key fun l => Store.EmptyWindow l.len start stop
  | lindex key index => s.Quiet now .list key fun l => Store.listIndex l index = none
  | lset key index _ => s.Quiet now .list key fun l => Store.listIndex l index = none
  | linsert key _ _ _ => s.Fresh now key
  | lrem key _ val => s.Quiet now .list key fun l => val ∉ l.toVec
  | ltrim key _ _ => s.Quiet now .list key fun _ => True
  | lmove src dst _ _ => s.MoveQuiet now .list src dst fun l => l.toVec ≠ []
  | hset key pairs => pairs = [] ∨ s.Fresh now key
  | hget key field => s.Quiet now .hash key fun h => h.get field = none
  | hmget key fields => ∀ e, s[key]? = some e → e.isExpired now = true →
      ∀ h, Kind.hash.view e.value = some h → ∀ f, some f ∈ fields → h.get f = none
  | hgetall key => s.Quiet now .hash key fun h => h.len = 0
  | hdel key fields => s.Quiet now .hash key fun h => ∀ f ∈ fields, h.get f = none
  | hlen key => s.Quiet now .hash key fun h => h.len = 0
  | hexists key field => s.Quiet now .hash key fun h => h.get field = none
  | hkeys key => s.Quiet now .hash key fun h => h.len = 0
  | hvals key => s.Quiet now .hash key fun h => h.len = 0
  | hsetnx key _ _ => s.Fresh now key
  | hincrby key _ _ => s.Fresh now key
  | hincrbyfloat key _ _ => s.Fresh now key
  | sadd key _ => s.Fresh now key
  | smembers key => s.Quiet now .set key fun t => t.len = 0
  | sismember key member => s.Quiet now .set key fun t => t.contains member = false
  | srem key members => s.Quiet now .set key fun t => ∀ m ∈ members, t.contains m = false
  | scard key => s.Quiet now .set key fun t => t.len = 0
  | smove src dst member => s.MoveQuiet now .set src dst fun t => t.contains member = true
  | srandmember key count => s.Quiet now .set key fun t =>
      t.len = 0 ∨ count.map Subtype.val = some 0
  | spop key count => s.Quiet now .set key fun t => t.len = 0 ∨ count = some 0
  | combine op ks => s.CombineQuiet now op ks
  | combineStore op _ ks => s.CombineQuiet now op ks
  | zadd key _ steps => ZaddStep.applied steps = [] ∨ s.Fresh now key
  | zscore key member => s.Quiet now .zset key fun z => z.scores[member]? = none
  | zrank key member => s.Quiet now .zset key fun z => z.scores[member]? = none
  | zrevrank key member => s.Quiet now .zset key fun z => z.scores[member]? = none
  | zcard key => s.Quiet now .zset key fun z => z.len = 0
  | zcount key lo hi => s.Quiet now .zset key fun z => z.inRange lo hi = []
  | zincrby key _ _ => s.Fresh now key
  | zrem key members => s.Quiet now .zset key fun z => ∀ m ∈ members, z.scores[m]? = none
  | zrange key start stop _ _ => s.Quiet now .zset key fun z => Store.EmptyWindow z.len start stop
  | zrangebyscore key lo hi offset limit _ _ => s.Quiet now .zset key fun z =>
      z.zcount lo hi ≤ offset ∨ limit = some 0
  | zpopmin key count => s.Quiet now .zset key fun z => count = 0 ∨ z.len = 0
  | zpopmax key count => s.Quiet now .zset key fun z => count = 0 ∨ z.len = 0
  | zremrangebyrank key start stop =>
    s.Quiet now .zset key fun z => Store.EmptyWindow z.len start stop
  | zremrangebyscore key lo hi => s.Quiet now .zset key fun z => z.inRange lo hi = []
  | answer _ | info _ | debugObject _ | existsKeys _ | type _ | expire _ _ | ttl _ | pttl _
  | keys | flush | get _ | set _ _ _ _ _ | mget _ | mset _ | strlen _ | getset _ _
  | setnx _ _ => True

end Request

/-! ## Set operations -/

namespace Store

variable {now : ℕ} {s : Store} {keys : List String}

theorem read_set_eq (s : Store) (k : String) :
    (s.NotSet k ∧ s.read .set k RedisSet.new id = .error wrongType) ∨
      ¬ s.NotSet k ∧ ∃ t : RedisSet, s.read .set k RedisSet.new id = .ok t ∧
        ∀ m, s.MemberAt k m ↔ t.contains m = true := by
  cases hs : s[k]? with
  | none =>
    refine Or.inr ⟨fun ⟨e, he, _⟩ => by simp [hs] at he, _, read_none hs, fun m => ?_⟩
    simp [MemberAt, hs]
  | some e =>
    cases hv : Kind.set.view e.value with
    | none => exact Or.inl ⟨⟨e, hs, hv⟩, read_wrong hs hv⟩
    | some t =>
      refine Or.inr ⟨fun ⟨e', he', hv'⟩ => ?_, _, read_some hs hv, fun m => ?_⟩
      · rw [hs, Option.some.injEq] at he'
        rw [← he', hv] at hv'
        cases hv'
      · simp [MemberAt, hs, hv]

/-- The operands of a set operation, if none of the keys holds another type. -/
theorem getSets_eq (s : Store) : ∀ keys : List String,
    ((∃ k ∈ keys, s.NotSet k) ∧ s.getSets keys = .error wrongType) ∨
      (∀ k ∈ keys, ¬ s.NotSet k) ∧ ∃ ts, s.getSets keys = .ok ts ∧
        List.Forall₂ (fun k t => ∀ m, s.MemberAt k m ↔ t.contains m = true) keys ts
  | [] => Or.inr ⟨by simp, [], rfl, .nil⟩
  | k :: keys => by
    have hcons : s.getSets (k :: keys) = do
        let t ← s.read .set k RedisSet.new id
        let ts ← s.getSets keys
        return t :: ts := by
      rw [getSets, List.mapM_cons]
      rfl
    rw [hcons]
    rcases read_set_eq s k with ⟨hk, herr⟩ | ⟨hk, t, hok, ht⟩
    · exact Or.inl ⟨⟨k, by simp, hk⟩, by rw [herr]; rfl⟩
    · rcases getSets_eq s keys with ⟨⟨k', hk', hnot⟩, herr⟩ | ⟨hall, ts, hts, hmem⟩
      · exact Or.inl ⟨⟨k', by simp [hk'], hnot⟩, by rw [hok, herr]; rfl⟩
      · exact Or.inr ⟨by simp [hk]; exact hall, t :: ts, by rw [hok, hts]; rfl, .cons ht hmem⟩

theorem exists_mem_congr {ks : List String} {ts : List RedisSet} {m : Bytes}
    (h : List.Forall₂ (fun k t => ∀ m, s.MemberAt k m ↔ t.contains m = true) ks ts) :
    (∃ t ∈ ts, t.contains m = true) ↔ ∃ k ∈ ks, s.MemberAt k m := by
  induction h with
  | nil => simp
  | cons ht _ ih => simp [ih, ht]

theorem forall_mem_congr {ks : List String} {ts : List RedisSet} {m : Bytes}
    (h : List.Forall₂ (fun k t => ∀ m, s.MemberAt k m ↔ t.contains m = true) ks ts) :
    (∀ t ∈ ts, t.contains m = true) ↔ ∀ k ∈ ks, s.MemberAt k m := by
  induction h with
  | nil => simp
  | cons ht _ ih => simp [ih, ht]

theorem mem_combine {op : SetOp} {ts : List RedisSet} {k : String} {ks : List String} {t : RedisSet}
    (h : List.Forall₂ (fun k t => ∀ m, s.MemberAt k m ↔ t.contains m = true) (k :: ks) (t :: ts))
    (m : Bytes) : m ∈ op.fn t ts ↔ op.Selects s (k :: ks) m := by
  obtain ⟨ht, hts⟩ := List.forall₂_cons.mp h
  cases op with
  | union =>
    rw [SetOp.fn, RedisSet.mem_unionWith, exists_mem_congr hts, ← ht]
    simp [SetOp.Selects]
  | inter =>
    rw [SetOp.fn, RedisSet.mem_intersectWith, forall_mem_congr hts, ← ht]
    simp [SetOp.Selects]
  | diff =>
    have hnone : (∀ u ∈ ts, u.contains m = false) ↔ ∀ k ∈ ks, ¬ s.MemberAt k m := by
      have hex := not_congr (@exists_mem_congr s ks ts m hts)
      push Not at hex
      simpa using hex
    rw [SetOp.fn, RedisSet.mem_diffWith, hnone, ← ht]
    simp [SetOp.Selects]

/-- A set operation fails on a key of another type, and gives the selected members. -/
theorem combine_eq (op : SetOp) (env : Env) (keys : List String) (s : Store) :
    ((∃ k ∈ keys, s.NotSet k) ∧ combine op.fn env keys s = .error wrongType) ∨
      (∀ k ∈ keys, ¬ s.NotSet k) ∧ ∃ r : ExtTreeSet Bytes compare,
        combine op.fn env keys s = .ok (env.memberOrder r.toList) ∧
          ∀ m, m ∈ r ↔ op.Selects s keys m := by
  rcases getSets_eq s keys with ⟨hnot, herr⟩ | ⟨hall, ts, hts, hmem⟩
  · exact Or.inl ⟨hnot, by rw [combine, herr]; rfl⟩
  · refine Or.inr ⟨hall, ?_⟩
    cases hmem with
    | nil =>
      have hnil : env.memberOrder (∅ : ExtTreeSet Bytes compare).toList = [] := by
        rw [ExtTreeSet.toList_eq_nil_iff.mpr rfl]
        exact (env.memberOrder_perm []).eq_nil
      refine ⟨∅, by rw [combine, hts, hnil]; rfl, fun m => ?_⟩
      cases op <;> simp [SetOp.Selects]
    | cons ht hrest =>
      exact ⟨_, by rw [combine, hts]; rfl, mem_combine (.cons ht hrest)⟩

theorem notSet_of_live {k : String} (h : (s.live now).NotSet k) : s.NotSet k := by
  obtain ⟨e, he, hv⟩ := h
  rw [getElem?_live, Option.filter_eq_some_iff] at he
  exact ⟨e, he.1, hv⟩

theorem memberOrder_inj {env : Env} {r r' : ExtTreeSet Bytes compare} :
    env.memberOrder r.toList = env.memberOrder r'.toList ↔ r = r' := by
  refine ⟨fun h => ExtTreeSet.ext_toList ?_, fun h => by rw [h]⟩
  exact ((env.memberOrder_perm _).symm.trans (.of_eq h)).trans (env.memberOrder_perm _)

/-- What the operation does on the store and on its live part. -/
theorem combine_live (now : ℕ) (op : SetOp) (env : Env) (keys : List String) (s : Store) :
    (combine op.fn env keys s = .error wrongType ∧
        combine op.fn env keys (s.live now) = .error wrongType ∧ s.CombineQuiet now op keys) ∨
      (combine op.fn env keys s = .error wrongType ∧
        (∃ l, combine op.fn env keys (s.live now) = .ok l) ∧ ¬ s.CombineQuiet now op keys) ∨
      ∃ r r' : ExtTreeSet Bytes compare,
        combine op.fn env keys s = .ok (env.memberOrder r.toList) ∧
        combine op.fn env keys (s.live now) = .ok (env.memberOrder r'.toList) ∧
        (s.CombineQuiet now op keys ↔ r = r') := by
  rcases combine_eq op env keys (s.live now) with ⟨hnot, herr⟩ | ⟨hall, r', hr', hmem'⟩
  · obtain ⟨k, hk, hlive⟩ := hnot
    rcases combine_eq op env keys s with ⟨-, herr'⟩ | ⟨hall, -⟩
    · exact Or.inl ⟨herr', herr, Or.inl ⟨k, hk, hlive⟩⟩
    · exact absurd (notSet_of_live hlive) (hall k hk)
  · have hlive : ¬ ∃ k ∈ keys, (s.live now).NotSet k := fun ⟨k, hk, h⟩ => hall k hk h
    rcases combine_eq op env keys s with ⟨⟨k, hk, hnot⟩, herr⟩ | ⟨hall', r, hr, hmem⟩
    · refine Or.inr (Or.inl ⟨herr, ⟨_, hr'⟩, ?_⟩)
      rintro (h | h)
      · exact hlive h
      · exact h.1 k hk hnot
    · refine Or.inr (Or.inr ⟨r, r', hr, hr', ?_⟩)
      rw [CombineQuiet, or_iff_right hlive, and_iff_right hall']
      refine ⟨fun h => ExtTreeSet.ext_mem fun m => ?_, fun h m => ?_⟩
      · rw [hmem, hmem', h]
      · rw [← hmem, ← hmem', h]

end Store

namespace TreatsAsAbsent

variable {now : ℕ} {s : Store}

/-- A command whose outcome on the live part is the one on the store. -/
theorem of_run {o : Store → Outcome} (hreply : (o (s.live now)).reply = (o s).reply)
    (hstore : (o (s.live now)).store = (o s).store.live now) : TreatsAsAbsent now o s :=
  ⟨hreply.symm, by rw [hstore, Store.live_live]⟩

theorem combine (op : SetOp) (env : Env) (keys : List String) :
    TreatsAsAbsent now (fun s => .query s (s.combine op.fn env keys) .bulks) s ↔
      s.CombineQuiet now op keys := by
  simp only [TreatsAsAbsent, Outcome.query, Outcome.change, reply_of, Request.store_of,
    Store.live_live, and_true]
  rcases Store.combine_live now op env keys s with
    ⟨h, h', hq⟩ | ⟨h, ⟨l, h'⟩, hq⟩ | ⟨r, r', h, h', hq⟩
  · simp [h, h', hq]
  · simp [h, h', hq, replyOf, Frame.bulks]
  · rw [h, h', hq, ← Store.memberOrder_inj]
    simp only [replyOf, Frame.bulks, Frame.array.injEq, Option.some.injEq]
    refine (List.map_injective_iff.mpr fun a b hab => ?_).eq_iff
    simpa using hab

theorem combineStore (op : SetOp) (env : Env) (dst : String) (keys : List String) :
    TreatsAsAbsent now (fun s => .change (s.combineStore op.fn env dst keys) fun n => .integer n) s ↔
      s.CombineQuiet now op keys := by
  simp only [TreatsAsAbsent, Outcome.change, reply_of, Request.store_of, Store.combineStore]
  rcases Store.combine_live now op env keys s with
    ⟨h, h', hq⟩ | ⟨h, ⟨l, h'⟩, hq⟩ | ⟨r, r', h, h', hq⟩
  · simp [h, h', hq, Store.live_live]
  · simp [h, h', hq, replyOf]
  · simp only [h, h', hq]
    refine ⟨fun heq => ?_, fun heq => ?_⟩
    · have hdst := congrArg (fun t : Store => t[dst]?) heq.2
      rw [Store.live_insert_live rfl, Store.live_insert_live rfl] at hdst
      simp only [FinMap.getElem?_insert_self, Option.some.injEq, Entry.mk.injEq, Value.set.injEq,
        and_true] at hdst
      refine ExtTreeSet.ext_mem fun m => ?_
      have hmem := Bool.eq_iff_iff.mp (congrArg (fun t : RedisSet => t.contains m) hdst)
      simpa [RedisSet.contains_sadd, (env.memberOrder_perm _).mem_iff] using hmem
    · rw [heq, Store.live_insert_live rfl, Store.live_insert_live rfl, Store.live_live]
      exact ⟨rfl, rfl⟩

end TreatsAsAbsent

/-! ## Replies that say that nothing is there -/

@[simp] theorem bulks_eq_bulks_nil {bs : List Bytes} : Frame.bulks bs = Frame.bulks [] ↔ bs = [] := by
  simp [Frame.bulks]

theorem pairsFrame_eq_nil {pairs : List (Bytes × Bytes)} :
    pairsFrame pairs = pairsFrame [] ↔ pairs = [] := by
  cases pairs <;> simp [pairsFrame]

theorem zsetPairsToFrame_eq_nil {pairs : List (Bytes × F64)} {ws : Bool} :
    zsetPairsToFrame pairs ws = zsetPairsToFrame [] ws ↔ pairs = [] := by
  cases pairs <;> cases ws <;> simp [zsetPairsToFrame]

theorem poppedFrame_eq_nil {withCount : Bool} {one : List Bytes → Option Bytes} {v : List Bytes}
    (hone : one v = none ↔ v = []) (hnil : one [] = none) :
    poppedFrame withCount one v = poppedFrame withCount one [] ↔ v = [] := by
  cases withCount <;> simp [poppedFrame, bulkOrNull, hone, hnil]

theorem poppedFrame_ne_error {withCount : Bool} {one : List Bytes → Option Bytes} {v : List Bytes}
    {msg : String} : poppedFrame withCount one v ≠ .error msg := by
  cases withCount <;> simp [poppedFrame, bulkOrNull, Frame.bulks]

namespace TreatsAsAbsent

/-- `HMGET` answers null for a field that it cannot read, for whatever reason. -/
theorem hmget {ctx : CommandContext} {env : Env} {s : Store} {key : String}
    {fields : List (Option Bytes)} :
    TreatsAsAbsent env.now (fun s => (Request.hmget key fields).run ctx env s) s ↔
      (Request.hmget key fields).Unaffected env.now s := by
  simp only [TreatsAsAbsent, Request.run, Store.live_live, and_true, Frame.array.injEq,
    Option.some.injEq, Store.hget, Request.Unaffected]
  cases hs : s[key]? with
  | none => simp [Store.read_none hs, Store.read_none (Store.getElem?_live_of_none hs)]
  | some e =>
    cases hexp : e.isExpired env.now with
    | false =>
      have hkey := Store.getElem?_live_of_live hs hexp
      refine iff_of_true (List.map_congr_left fun f _ => ?_) ?_
      · simp only [Store.read, hs, hkey]
      · rintro e' he' hexp'
        rw [Option.some.injEq] at he'
        rw [← he', hexp] at hexp'
        cases hexp'
    | true =>
      simp only [Store.read_none (Store.getElem?_live_of_expired hs hexp)]
      cases hv : Kind.hash.view e.value with
      | none => simp [Store.read_wrong hs hv, hexp, hv]
      | some h =>
        simp only [Store.read_some hs hv, List.map_inj_left, Option.some.injEq, forall_eq', hexp,
          hv, true_imp_iff]
        constructor
        · intro heq f hf
          have hnull := heq (some f) hf
          cases hget : h.get f with
          | none => rfl
          | some v => simp [hget, Frame.nullBulk] at hnull
        · intro hnone f hf
          cases f with
          | none => rfl
          | some f => simp only [hnone f hf]

end TreatsAsAbsent

/-- A position that `listIndex` gives is in the list. -/
theorem Store.lt_of_listIndex {l : RedisList} {index : ℤ} {i : ℕ}
    (h : Store.listIndex l index = some i) : i < l.toVec.length := by
  simp only [Store.listIndex] at h
  generalize (if index < 0 then (Text.wrap (l.len + index)).1 else index) = idx at h
  rw [RedisList.len] at h
  split at h
  · cases h
  · rw [Option.some.injEq] at h
    omega

namespace Request

variable {ctx : CommandContext} {env : Env} {s : Store}

open TreatsAsAbsent in
theorem treatsAsAbsent_iff (r : Request) :
    TreatsAsAbsent env.now (fun s => r.run ctx env s) s ↔ r.Unaffected env.now s := by
  cases r with
  | answer f | flush => exact iff_of_true (of_run rfl rfl) trivial
  | info sect =>
    refine iff_of_true (of_run ?_ rfl) trivial
    have hinfo : (s.live env.now).keyspaceInfo env.now = s.keyspaceInfo env.now := by
      simp only [Store.keyspaceInfo, Store.live_live]
    simp only [run, infoText, infoKeyspace, hinfo]
  | debugObject key =>
    refine iff_of_true (of_run ?_ rfl) trivial
    have hobj : (s.live env.now).debugObject env.now key = s.debugObject env.now key :=
      Store.lookup_live
    simp only [run, hobj]
  | del ks =>
    obtain ⟨-, heq, hstore⟩ := @Store.del_live env.now ks s
    simp only [TreatsAsAbsent, run, hstore, Store.live_live, and_true, Frame.integer.injEq,
      Nat.cast_inj]
    exact eq_comm.trans heq
  | existsKeys ks =>
    refine iff_of_true (of_run ?_ rfl) trivial
    simp only [run, Store.exists_live]
  | type key =>
    refine iff_of_true (of_run ?_ rfl) trivial
    have htype : (s.live env.now).typeOf env.now key = s.typeOf env.now key := Store.lookup_live
    simp only [run, htype]
  | expire key dur =>
    refine iff_of_true (of_run ?_ ?_) trivial <;> simp only [run, Store.expire_live]
  | ttl key | pttl key =>
    refine iff_of_true (of_run ?_ rfl) trivial
    have hpttl : (s.live env.now).pttl env.now key = s.pttl env.now key := Store.lookup_live
    simp only [run, hpttl]
  | persist key =>
    refine Iff.trans ?_ Store.persist_live
    have hflag {a b : Bool} : Frame.flag a = Frame.flag b ↔ b = a := by
      cases a <;> cases b <;> simp [Frame.flag]
    simp only [TreatsAsAbsent, run, hflag, eq_comm]
  | keys =>
    refine iff_of_true (of_run ?_ rfl) trivial
    simp only [run, Store.allKeys, Store.live_live]
  | dbsize =>
    refine Iff.trans ?_ Store.keysCount_live
    simp only [TreatsAsAbsent, run, Store.live_live, and_true, Frame.integer.injEq, Nat.cast_inj,
      eq_comm]
  | get key | strlen key =>
    refine iff_of_true (of_run ?_ ?_) trivial <;> simp only [run, Store.get_live]
  | set key val dur nx xx =>
    refine iff_of_true (of_run ?_ ?_) trivial <;>
      simp only [run, Store.exists_live, Store.set_live] <;> grind
  | mget ks => refine iff_of_true (of_run ?_ ?_) trivial <;> simp only [run, Store.mgetLoop_live]
  | mset pairs => exact iff_of_true (of_run rfl (Store.msetLoop_live pairs s)) trivial
  | getset key val =>
    refine iff_of_true (of_run ?_ ?_) trivial <;> simp only [run, Store.getset_live]
  | setnx key val =>
    refine iff_of_true (of_run ?_ ?_) trivial <;>
      simp only [run, Store.exists_live, Store.set_live] <;> grind
  | append | incrby | hsetnx | hincrby | hincrbyfloat | sadd | zincrby =>
    exact creates Store.creates_upsert
  | push left key values => cases left <;> exact creates Store.creates_upsert
  | hset key pairs =>
    cases pairs with
    | nil => exact iff_of_true (of_run rfl rfl) (Or.inl rfl)
    | cons p pairs => 
      refine (creates (creates_hsetLoop p pairs)).trans ?_
      simp [Unaffected]
  | zadd key flags steps =>
    by_cases hnil : ZaddStep.applied steps = []
    · obtain ⟨r, hr⟩ := @zaddLoop_of_applied_nil key flags steps hnil
      refine iff_of_true (of_live ?_) (Or.inl hnil)
      rw [hr, hr]
    · exact (creates (creates_zaddLoop steps hnil)).trans (or_iff_right hnil).symm
  | pop left key count withCount =>
    obtain ⟨n, hn⟩ : ∃ n, max count 1 = n + 1 := ⟨max count 1 - 1, by omega⟩
    cases left with
    | false =>
      refine TreatsAsAbsent.update (fun l => ?_) poppedFrame_ne_error
      rw [Store.done, replyOf, poppedFrame_eq_nil List.getLast?_eq_none_iff rfl, hn,
        RedisList.popBackN, RedisList.popN_succ_eq_nil]
      simp [RedisList.popBack]
    | true =>
      refine TreatsAsAbsent.update (fun l => ?_) poppedFrame_ne_error
      rw [Store.done, replyOf, poppedFrame_eq_nil List.getLast?_eq_none_iff rfl, hn,
        RedisList.popFrontN, RedisList.popN_succ_eq_nil]
      simp [RedisList.popFront]
  | llen key => exact TreatsAsAbsent.read (fun l => by simp [RedisList.len_eq_zero]) (by simp)
  | lrange key start stop =>
    exact TreatsAsAbsent.read (fun l => by rw [bulks_eq_bulks_nil, RedisList.range_eq_nil]; rfl)
      (by simp [Frame.bulks])
  | lindex key index =>
    refine TreatsAsAbsent.read (fun l => ?_) (by simp [bulkOrNull])
    cases hidx : Store.listIndex l index with
    | none => simp
    | some i => simp [bulkOrNull, RedisList.get, Store.lt_of_listIndex hidx]
  | lset key index val =>
    refine TreatsAsAbsent.update (fun l => ?_) (by simp [wrongType])
    cases hidx : Store.listIndex l index with
    | none => simp [replyOf]
    | some i =>
      simp [replyOf, Store.done, RedisList.setIndex, RedisList.len, Store.lt_of_listIndex hidx,
        Frame.ok]
  | linsert key before pivot val =>
    refine TreatsAsAbsent.update_ne (fun l => ?_) (by simp)
    cases before <;> simp [replyOf, Store.done, RedisList.insertBefore, RedisList.insertAfter,
      RedisList.insertAt_fst_ne_zero]
  | lrem key count val =>
    refine TreatsAsAbsent.update (fun l => ?_) (by simp)
    simp [replyOf, Store.done, RedisList.lrem_fst_eq_zero]
  | ltrim key start stop =>
    exact TreatsAsAbsent.update (fun l => by simp [replyOf, Store.done]) (by simp [Frame.ok])
  | lmove src dst fromLeft toLeft =>
    exact TreatsAsAbsent.move (RedisList.takes_pop fromLeft) (by simp [bulkOrNull])
      (by simp [bulkOrNull])
  | smove src dst member =>
    have hmove (s : Store) : (smove src dst member).run ctx env s = .change
        (s.move .set src dst .new (fun t => (if (t.removeOne member).1 then some member else none,
          (t.removeOne member).2)) fun m t => (t.sadd [m]).2) fun b => .flag b.isSome := by
      simp only [run, Store.smove, Outcome.change, Outcome.of]
      cases (Store.move Kind.set src dst RedisSet.new _ _ s).1 <;> rfl
    simp only [hmove]
    exact TreatsAsAbsent.move (RedisSet.takes_removeOne member) (by simp [Frame.flag])
      (by simp [Frame.flag])
  | hget key field => exact TreatsAsAbsent.read (fun h => by simp [bulkOrNull]) (by simp [bulkOrNull])
  | hmget key fields => exact TreatsAsAbsent.hmget
  | hgetall key =>
    exact TreatsAsAbsent.read (fun h => by rw [pairsFrame_eq_nil, RedisHash.allPairs_eq_nil])
      (by simp [pairsFrame])
  | hkeys key | hvals key =>
    refine TreatsAsAbsent.read (fun h => ?_) (by simp [Frame.bulks])
    rw [bulks_eq_bulks_nil, ← @RedisHash.allPairs_eq_nil env]
    exact List.map_eq_nil_iff
  | hdel key fields =>
    refine TreatsAsAbsent.update (fun h => ?_) (by simp)
    simp [replyOf, Store.done, RedisHash.hdel_fst_eq_zero]
  | hlen key | scard key | zcard key => exact TreatsAsAbsent.read (fun h => by simp) (by simp)
  | hexists key field =>
    refine TreatsAsAbsent.read (fun h => ?_) (by simp [Frame.flag])
    rw [RedisHash.contains_eq]
    cases h.get field <;> simp [Frame.flag]
  | smembers key =>
    exact TreatsAsAbsent.read (fun t => by rw [bulks_eq_bulks_nil, RedisSet.members_eq_nil])
      (by simp [Frame.bulks])
  | sismember key member =>
    refine TreatsAsAbsent.read (fun t => ?_) (by simp [Frame.flag])
    cases t.contains member <;> simp [Frame.flag]
  | srem key members =>
    refine TreatsAsAbsent.update (fun t => ?_) (by simp)
    simp [replyOf, Store.done, RedisSet.srem_fst_eq_zero]
  | srandmember key count =>
    refine TreatsAsAbsent.read (fun t => ?_) poppedFrame_ne_error
    rw [poppedFrame_eq_nil List.head?_eq_none_iff rfl]
    cases count with
    | none => simpa using @RedisSet.randomMembers_eq_nil env t ⟨1, by decide⟩
    | some n => simpa using @RedisSet.randomMembers_eq_nil env t n
  | spop key count =>
    refine TreatsAsAbsent.update (fun t => ?_) poppedFrame_ne_error
    rw [Store.done, replyOf, poppedFrame_eq_nil List.head?_eq_none_iff rfl, RedisSet.spop_fst_eq_nil]
    cases count <;> simp
  | combine op ks => exact TreatsAsAbsent.combine op env ks
  | combineStore op dst ks => exact TreatsAsAbsent.combineStore op env dst ks
  | zscore key member =>
    exact TreatsAsAbsent.read (fun z => by simp [bulkOrNull, ZSet.zscore]) (by simp [bulkOrNull])
  | zrank key member =>
    refine TreatsAsAbsent.read (fun z => ?_) (by simp [Frame.nullBulk])
    cases hz : z.scores[member]? <;> simp [ZSet.zrank, hz, Frame.nullBulk]
  | zrevrank key member =>
    refine TreatsAsAbsent.read (fun z => ?_) (by simp [Frame.nullBulk])
    cases hz : z.scores[member]? <;> simp [ZSet.zrevrank, ZSet.zrank, hz, Frame.nullBulk]
  | zcount key lo hi => exact TreatsAsAbsent.read (fun z => by simp [ZSet.zcount]) (by simp)
  | zrem key members =>
    refine TreatsAsAbsent.update (fun z => ?_) (by simp)
    simp [replyOf, Store.done, (ZSet.zrem_spec members z).1]
  | zrange key start stop rev ws =>
    refine TreatsAsAbsent.read (fun z => ?_) (by simp [zsetPairsToFrame])
    rw [zsetPairsToFrame_eq_nil, ZSet.zrangeByRank_eq_nil]
    rfl
  | zrangebyscore key lo hi offset limit rev ws =>
    refine TreatsAsAbsent.read (fun z => ?_) (by simp [zsetPairsToFrame])
    rw [zsetPairsToFrame_eq_nil, ZSet.zrangebyscore_eq_nil]
  | zpopmin key count =>
    refine TreatsAsAbsent.update (fun z => ?_) (by simp [zsetPairsToFrame])
    rw [Store.done, replyOf, zsetPairsToFrame_eq_nil, ZSet.zpopmin, ZSet.zpop_eq_nil,
      ExtTreeSet.min?_eq_none_iff, ZSet.byScore_eq_empty]
  | zpopmax key count =>
    refine TreatsAsAbsent.update (fun z => ?_) (by simp [zsetPairsToFrame])
    rw [Store.done, replyOf, zsetPairsToFrame_eq_nil, ZSet.zpopmax, ZSet.zpop_eq_nil,
      ExtTreeSet.max?_eq_none_iff, ZSet.byScore_eq_empty]
  | zremrangebyrank key start stop =>
    refine TreatsAsAbsent.update (fun z => ?_) (by simp)
    rw [Store.done, replyOf, Store.EmptyWindow, ← ZSet.zremrangebyrank_fst_eq_zero]
    simp
  | zremrangebyscore key lo hi =>
    refine TreatsAsAbsent.update (fun z => ?_) (by simp)
    simp [replyOf, Store.done, ZSet.zremrangebyscore]
end Request

/-! ## Frames -/

/-- On a single node, a data command gives the reply and the live entries that it gives on
the store without the expired entries, exactly if what it asks of the store is unaffected by
them. -/
theorem expired_keys_absent_iff {ctx : CommandContext} (hraft : ctx.raft = none)
    (hcluster : ctx.cluster = none) {frame : Frame} (hdata : isData frame = true)
    (elsewhere : Route → Store → Outcome) (env : Env) (s : Store) :
    (execute ctx elsewhere env frame s).reply =
        (execute ctx elsewhere env frame (s.live env.now)).reply ∧
      (execute ctx elsewhere env frame s).store.live env.now =
        (execute ctx elsewhere env frame (s.live env.now)).store.live env.now ↔
    ∀ r, requestOf ctx frame = some r → r.Unaffected env.now s := by
  rcases execute_of_isData hraft hcluster hdata elsewhere env with ⟨r, hr, hrun⟩ | ⟨hnone, f, hf⟩
  · simp only [hrun, hr, Option.some.injEq, forall_eq']
    exact Request.treatsAsAbsent_iff r
  · simp [hf, hnone, Store.live_live]

section Failing

/-- A list with one element that expired at time 0. -/
def staleStore : Store :=
  (∅ : Store).insert "l" ⟨.list (.small [Utf8.toBytes "x"]), some 0⟩

/-- Serve a command at time 1. -/
def serveLater (words : List String) (s : Store) : Outcome :=
  execute .standalone (fun _ s => ⟨.ok, s, []⟩) (.plain 1) (.command words) s

/-- `LLEN`, `DBSIZE` and `DEL` see the expired list. `RPUSH` appends to it, and the element
it has accepted is not there afterwards. -/
theorem expired_key_seen :
    ((serveLater ["LLEN", "l"] staleStore).reply = .integer 1 ∧
      (serveLater ["LLEN", "l"] (staleStore.live 1)).reply = .integer 0) ∧
    ((serveLater ["DBSIZE"] staleStore).reply = .integer 1 ∧
      (serveLater ["DBSIZE"] (staleStore.live 1)).reply = .integer 0) ∧
    ((serveLater ["DEL", "l"] staleStore).reply = .integer 1 ∧
      (serveLater ["DEL", "l"] (staleStore.live 1)).reply = .integer 0) ∧
    ((serveLater ["RPUSH", "l", "y"] staleStore).store.live 1).size = 0 ∧
      ((serveLater ["RPUSH", "l", "y"] (staleStore.live 1)).store.live 1).size = 1 := by
  decide +kernel

/-- A test for the request of a `TYPE`. -/
def asksType : Option Request → Bool
  | some (.type _) => true
  | _ => false

/-- `TYPE` treats it as absent. -/
theorem expired_keys_absent_type :
    (serveLater ["TYPE", "l"] staleStore).reply =
        (serveLater ["TYPE", "l"] (staleStore.live 1)).reply ∧
      (serveLater ["TYPE", "l"] staleStore).store.live 1 =
        (serveLater ["TYPE", "l"] (staleStore.live 1)).store.live 1 := by
  refine (@expired_keys_absent_iff .standalone rfl rfl _ (by decide) _ (.plain 1)
    _).mpr fun r hr => ?_
  have hreq : asksType (requestOf .standalone (.command ["TYPE", "l"])) = true := by decide
  rw [hr] at hreq
  cases r with
  | type key => trivial
  | _ => cases hreq

end Failing

end LoonyRedis
