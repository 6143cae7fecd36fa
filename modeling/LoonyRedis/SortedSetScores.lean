import LoonyRedis.EmptyCollections
import LoonyRedis.SortedSetOrder

/-!
# Scores are numbers

The order of the encoded scores is right for numbers, and the source says that NaN is rejected
before it comes to a sorted set. `ZADD` leaves such pairs out. `ZINCRBY` tests neither its
increment nor the sum, and stores what the addition gives : NaN for the increment NaN, and for an
infinite score with the opposite infinity.

`Request.KeepsNumbers` excludes these increments. Every other request keeps NaN out
(`nanFree_run_iff`), and `scores_are_numbers` is about whole runs.
-/

namespace LoonyRedis

open Std

/-- No score of a sorted set is NaN. -/
def Value.NaNFree : Value → Prop
  | .zset z => z.NaNFree
  | _ => True

/-- The increment has a sum with the score of the member, which is zero if it has none. -/
def ZSet.HasSum (z : ZSet) (delta : F64) (member : Bytes) : Prop :=
  delta.isNaN = false ∧ ∀ old, z.zscore member = some old →
    ¬ (old.isInf = true ∧ delta.isInf = true ∧ old.neg ≠ delta.neg)

/-- A request that adds no increment to a score without a sum. -/
def Request.KeepsNumbers (s : Store) : Request → Prop
  | zincrby key delta member =>
    (s[key]? = none → delta.isNaN = false) ∧ s.IfHeld .zset key fun z => z.HasSum delta member
  | _ => True

/-! ## Sorted sets -/

namespace ZSet

variable {z : ZSet} {flags : ZaddFlags}

theorem nanFree_put_iff (hz : z.NaNFree) {m : Bytes} {x : F64} :
    (z.put m x).NaNFree ↔ x.isNaN = false :=
  ⟨fun h => h m x (by rw [scores_put, if_pos rfl]), hz.put⟩

theorem nanFree_zincrby_iff (hz : z.NaNFree) {delta : F64} {m : Bytes} :
    (z.zincrby delta m).2.NaNFree ↔ z.HasSum delta m := by
  have hzero : F64.zero.isNaN = false := by decide
  have hfinite : F64.zero.isInf = false := by decide
  rw [zincrby, nanFree_put_iff hz, Bool.eq_false_iff, Ne, F64.isNaN_add_iff, HasSum, zscore]
  cases hold : z.scores[m]? with
  | none => simp [hzero, hfinite]
  | some old =>
    have hnum := hz m old hold
    simp [hnum]

theorem isNaN_rescore {old : Option F64} {x w : F64} (hold : ∀ y, old = some y → y.isNaN = false)
    (h : flags.rescore old x = some w) : w.isNaN = false := by
  unfold ZaddFlags.rescore at h
  split at h
  · exact hold w h
  · next hx =>
    rw [Bool.not_eq_true] at hx
    cases old with
    | none =>
      dsimp only at h
      split at h
      · cases h
      · exact Option.some.inj h ▸ hx
    | some y =>
      have hy := hold y rfl
      grind

theorem NaNFree.zaddAll : ∀ {adds : List (F64 × Bytes)} {z : ZSet}, z.NaNFree →
    (z.zaddAll flags adds).NaNFree
  | [], _, hz => hz
  | (x, m) :: adds, z, hz => by
    have hstep : (z.zadd x m flags.nx flags.xx flags.gt flags.lt).2.NaNFree := by
      intro m' w hw
      rw [scores_zadd] at hw
      split at hw
      · exact isNaN_rescore (hz m') hw
      · exact hz m' w hw
    exact @NaNFree.zaddAll adds _ hstep

/-- Removals bring no scores. -/
theorem NaNFree.of_scores {w : ZSet} (hz : z.NaNFree)
    (h : ∀ (m : Bytes) (x : F64), w.scores[m]? = some x → z.scores[m]? = some x) : w.NaNFree :=
  fun m x hx => hz m x (h m x hx)

theorem NaNFree.zrem (hz : z.NaNFree) {ms : List Bytes} : (z.zrem ms).2.NaNFree := by
  refine hz.of_scores fun m x hx => ?_
  rw [(zrem_spec ms z).2] at hx
  split at hx
  · cases hx
  · exact hx

theorem NaNFree.zpop {pick : ZSet → Option ScoreKey} : ∀ {n : ℕ} {z : ZSet}, z.NaNFree →
    (zpop pick n z).2.NaNFree
  | 0, _, hz => hz
  | n + 1, z, hz => by
    unfold ZSet.zpop
    split
    · next k _ => exact @NaNFree.zpop pick n (z.remove k.member) hz.remove
    · exact hz

end ZSet

/-! ## All requests -/

namespace Request

variable {ctx : CommandContext} {env : Env} {s : Store}

theorem nanFree_zadd {key : String} {flags : ZaddFlags} {steps : List ZaddStep}
    (hs : s.All Value.NaNFree) :
    ((zadd key flags steps).run ctx env s).store.All Value.NaNFree := by
  rw [run, store_of]
  cases he : s[key]? with
  | none =>
    obtain ⟨hnil, hcons, -⟩ := zaddLoop_none flags he steps
    by_cases happlied : ZaddStep.applied steps = []
    · rw [hnil happlied]
      exact hs
    · rw [hcons happlied]
      exact hs.insert_iff.mpr ZSet.nanFree_new.zaddAll
  | some e =>
    cases hv : Kind.zset.view e.value with
    | none =>
      rw [zaddLoop_wrong flags he hv]
      exact hs
    | some z =>
      have hz : z.NaNFree := hs.wrap he hv
      rw [(zaddLoop_some flags steps he hv).1]
      exact hs.insert_iff.mpr hz.zaddAll

theorem nanFree_zincrby_iff {key : String} {delta : F64} {member : Bytes}
    (hs : s.All Value.NaNFree) :
    ((zincrby key delta member).run ctx env s).store.All Value.NaNFree ↔
      (zincrby key delta member).KeepsNumbers s := by
  have hnew : ZSet.new.HasSum delta member ↔ delta.isNaN = false :=
    and_iff_left fun old hold => by simp [ZSet.new, ZSet.zscore] at hold
  rw [run, Outcome.change, store_of]
  refine hs.upsert_iff.trans (and_congr (imp_congr_right fun _ => ?_) ?_)
  · exact (ZSet.nanFree_zincrby_iff ZSet.nanFree_new).trans hnew
  · refine forall₂_congr fun e z => forall₂_congr fun he hv => ?_
    exact ZSet.nanFree_zincrby_iff (hs.wrap he hv)

/-- A request keeps NaN out of the sorted sets exactly under its condition. -/
theorem nanFree_run_iff (hs : s.All Value.NaNFree) (r : Request) :
    (r.run ctx env s).store.All Value.NaNFree ↔ r.KeepsNumbers s := by
  cases r with
  | zincrby => exact nanFree_zincrby_iff hs
  | zadd => exact iff_of_true (nanFree_zadd hs) trivial
  | zrem =>
    rw [run, Outcome.change, store_of]
    exact iff_of_true (hs.update fun _ hz => ZSet.NaNFree.zrem hz) trivial
  | zpopmin | zpopmax =>
    rw [run, Outcome.change, store_of]
    exact iff_of_true (hs.update fun _ hz => ZSet.NaNFree.zpop hz) trivial
  | zremrangebyrank | zremrangebyscore =>
    rw [run, Outcome.change, store_of]
    exact iff_of_true (hs.update fun _ hz => ZSet.NaNFree.zrem hz) trivial
  -- The others write no sorted set.
  | del => exact iff_of_true hs.del trivial
  | expire key ttl => exact iff_of_true (hs.expire env.now key ttl) trivial
  | persist key => exact iff_of_true (hs.persist key) trivial
  | flush => exact iff_of_true Store.all_empty trivial
  | get key | strlen key => exact iff_of_true (hs.get env.now key) trivial
  | set =>
    refine iff_of_true ?_ trivial
    simp only [run]
    split
    · exact hs
    · split
      · exact hs
      · exact hs.set trivial
  | setnx =>
    refine iff_of_true ?_ trivial
    simp only [run]
    split
    · exact hs
    · exact hs.set trivial
  | getset key val => exact iff_of_true ((hs.get env.now key).set trivial) trivial
  | mget => exact iff_of_true (all_mgetLoop env.now hs) trivial
  | mset => exact iff_of_true (all_msetLoop (fun _ => trivial) env.now hs) trivial
  | hset key =>
    rw [run, store_of]
    exact iff_of_true (all_hsetLoop (fun _ _ _ => trivial) key hs) trivial
  | append | incrby =>
    rw [run, store_of]
    exact iff_of_true (hs.upsert trivial fun _ _ => trivial) trivial
  | push left =>
    rw [run, store_of]
    refine iff_of_true ?_ trivial
    cases left <;> exact hs.upsert trivial fun _ _ => trivial
  | sadd =>
    rw [run, store_of]
    exact iff_of_true (hs.upsert trivial fun _ _ => trivial) trivial
  | hsetnx | hincrby | hincrbyfloat =>
    rw [run, Outcome.change, store_of]
    exact iff_of_true (hs.upsert trivial fun _ _ => trivial) trivial
  | pop left =>
    rw [run, Outcome.change, store_of]
    refine iff_of_true ?_ trivial
    cases left <;> exact hs.update fun _ _ => trivial
  | lset | linsert | lrem | ltrim | hdel | srem | spop =>
    rw [run, Outcome.change, store_of]
    exact iff_of_true (hs.update fun _ _ => trivial) trivial
  | lmove | smove =>
    rw [run, Outcome.change, store_of]
    exact iff_of_true (hs.move fun _ => trivial) trivial
  | combineStore op dst ks =>
    rw [run, Outcome.change, store_of]
    refine iff_of_true ?_ trivial
    unfold Store.combineStore
    split
    · exact hs
    · exact hs.insert_iff.mpr trivial
  | answer | info | debugObject | existsKeys | type | ttl | pttl | keys | dbsize | hmget =>
    exact iff_of_true hs trivial
  | llen | lrange | lindex | hget | hgetall | hlen | hexists | hkeys | hvals | smembers | sismember
  | scard | srandmember | combine | zscore | zrank | zrevrank | zcard | zcount | zrange
  | zrangebyscore =>
    rw [run, Outcome.query, Outcome.change, store_of]
    exact iff_of_true hs trivial

end Request

/-! ## Runs -/

namespace DataCommand

/-- What the command asks of the store adds no increment to a score without a sum. -/
def KeepsNumbers (s : Store) (c : DataCommand) : Prop :=
  ∀ r, requestOf c.ctx c.frame = some r → r.KeepsNumbers s

theorem nanFree_step_iff {s t : Store} {c : DataCommand} (hs : s.All Value.NaNFree)
    (h : step s c = some t) : t.All Value.NaNFree ↔ c.KeepsNumbers s := by
  rcases step_cases h with ⟨r, hr, rfl⟩ | ⟨hnone, rfl⟩
  · rw [KeepsNumbers, hr]
    simp only [Option.some.injEq, forall_eq']
    exact Request.nanFree_run_iff hs r
  · exact iff_of_true hs fun r hr => by simp [hnone] at hr

end DataCommand

/-- In every run of data commands from the empty store in which each step meets its condition, all
scores in the sorted sets are numbers, and any two of them are comparable. In the next step this
stays so exactly if that step meets its condition too. -/
theorem scores_are_numbers {s : Store}
    (hrun : Runs.Run DataCommand.step DataCommand.KeepsNumbers ∅ s) :
    s.All Value.NaNFree ∧
    (∀ (key : String) (e : Entry) (z : ZSet), s[key]? = some e → e.value = .zset z →
      ∀ m m' x y, z.zscore m = some x → z.zscore m' = some y →
        x.lt y = true ∨ x.eq y = true ∨ y.lt x = true) ∧
    ∀ c t, DataCommand.step s c = some t → (t.All Value.NaNFree ↔ c.KeepsNumbers s) := by
  have hs : s.All Value.NaNFree := hrun.invariant
    (fun _ _ _ hs hc hstep => (DataCommand.nanFree_step_iff hs hstep).mpr hc) Store.all_empty
  refine ⟨hs, fun key e z he hz m m' x y hx hy => ?_,
    fun _ _ h => DataCommand.nanFree_step_iff hs h⟩
  have hnum : e.value.NaNFree := hs key e he
  rw [hz] at hnum
  exact F64.lt_or_eq_or_gt (hnum m x hx) (hnum m' y hy)

section Infinities

/-- The score of a member of the sorted set at a key. -/
def Store.scoreAt (s : Store) (key : String) (member : Bytes) : Option F64 :=
  s[key]?.bind fun e => (Kind.zset.view e.value).bind fun z => z.zscore member

theorem Store.scoreAt_of {s : Store} {key : String} {e : Entry} {z : ZSet} {member : Bytes}
    (he : s[key]? = some e) (hv : Kind.zset.view e.value = some z) :
    s.scoreAt key member = z.zscore member := by
  rw [scoreAt, he, Option.bind_some, hv, Option.bind_some]

/-- `ZINCRBY` stores NaN as the sum of the two infinities. -/
theorem infinities_give_nan : ∃ s, Runs.Run DataCommand.step (fun _ _ => True) ∅ s ∧
    s.scoreAt "s" [0x61] = some F64.indefinite ∧ F64.indefinite.isNaN = true := by
  have hrun : (Runs.exec DataCommand.step (fun _ _ => True) ∅
      [.ofWords ["ZADD", "s", "inf", "a"], .ofWords ["ZINCRBY", "s", "-inf", "a"]]).any (fun s =>
        s.scoreAt "s" [0x61] = some F64.indefinite) = true := by
    decide
  obtain ⟨s, hs, hp⟩ := Runs.exists_run_of_exec hrun
  exact ⟨s, hs, of_decide_eq_true hp, by decide⟩

/-- The same infinity again has a sum. -/
theorem infinity_stays : ∃ s, Runs.Run DataCommand.step DataCommand.KeepsNumbers ∅ s ∧
    s.scoreAt "s" [0x61] = some F64.infinity ∧ s.All Value.NaNFree := by
  have hadd : requestOf .standalone (.command ["ZADD", "s", "inf", "a"]) =
      some (.zadd "s" {} [.add F64.infinity [0x61]]) := rfl
  have hincr : requestOf .standalone (.command ["ZINCRBY", "s", "inf", "a"]) =
      some (.zincrby "s" F64.infinity [0x61]) := rfl
  obtain ⟨s, hs⟩ : ∃ s, DataCommand.step ∅ (.ofWords ["ZADD", "s", "inf", "a"]) = some s :=
    ⟨_, rfl⟩
  obtain ⟨t, ht⟩ : ∃ t, DataCommand.step s (.ofWords ["ZINCRBY", "s", "inf", "a"]) = some t :=
    ⟨_, rfl⟩
  have hscore : s.scoreAt "s" [0x61] = some F64.infinity := by
    obtain rfl := Option.some.inj hs
    decide
  have hrun : Runs.Run DataCommand.step DataCommand.KeepsNumbers ∅ t := by
    refine .tail (.tail (.refl ∅) (fun r hr => ?_) hs) (fun r hr => ?_) ht
    · obtain rfl := Option.some.inj (hadd.symm.trans hr)
      trivial
    · obtain rfl := Option.some.inj (hincr.symm.trans hr)
      refine ⟨fun _ => by decide, fun e z he hv => ⟨by decide, fun old hold hopp => ?_⟩⟩
      rw [Store.scoreAt_of he hv, hold] at hscore
      obtain rfl := Option.some.inj hscore
      exact hopp.2.2 rfl
  refine ⟨t, hrun, ?_, (scores_are_numbers hrun).1⟩
  obtain rfl := Option.some.inj hs
  obtain rfl := Option.some.inj ht
  decide

end Infinities

end LoonyRedis
