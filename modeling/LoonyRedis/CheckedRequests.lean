import LoonyRedis.CheckedTables
import LoonyRedis.CheckedValues

/-!
# Where requests panic

`Request.runChecked` runs a request with each operation that may panic checked, as the source has
them : those on the values (`CheckedValues`) and on the slots (`CheckedTables`), an expiry that no
`Instant` can hold, the absolute value in a record, and the room for the frames of a reply.

`Request.Safe` is the condition, for each request and the store before it, that none of them
fails. `returns_runChecked` says that the request returns exactly under it, and then what
`Request.run` says.
-/

namespace LoonyRedis

open Checked Std

/-! ## Methods of the store -/

namespace Store

variable {α β : Type}

/-- `read` with a function that may panic. -/
def readChecked (K : Kind α) (key : String) (dflt : β) (f : α → Option β) (s : Store) :
    Option (Except String β) :=
  match s[key]? with
  | none => some (.ok dflt)
  | some e =>
    match K.view e.value with
    | some a => (f a).map .ok
    | none => some (.error wrongType)

/-- `update` with a function that may panic. -/
def updateChecked (K : Kind α) (key : String) (dflt : β) (f : α → Option (Except String β × α))
    (s : Store) : Option (Except String β × Store) :=
  match s[key]? with
  | none => some (.ok dflt, s)
  | some e =>
    match K.view e.value with
    | some a => (f a).map fun r => (r.1, s.insert key { e with value := K.wrap r.2 })
    | none => some (.error wrongType, s)

/-- `upsert` with a function that may panic. -/
def upsertChecked (K : Kind α) (key : String) (init : α) (f : α → Option (Except String β × α))
    (s : Store) : Option (Except String β × Store) :=
  let e := s[key]?.getD ⟨K.wrap init, none⟩
  match K.view e.value with
  | some a => (f a).map fun r => (r.1, s.insert key { e with value := K.wrap r.2 })
  | none => some (.error wrongType, s)

section Patterns

variable {K : Kind α} {key : String} {s : Store} {P : α → Prop} {dflt : β} {init : α}

/-- A checked read returns if the check on what is held does. -/
theorem returns_readChecked {f : α → Option β} {g : α → β} (h : ∀ e a, s[key]? = some e →
    K.view e.value = some a → Returns (f a) (P a) (g a)) :
    Returns (s.readChecked K key dflt f) (s.IfHeld K key P) (s.read K key dflt g) := by
  unfold readChecked read
  cases hs : s[key]? with
  | none => exact (Returns.of_eq rfl).congr (iff_of_true trivial (ifHeld_of_none hs))
  | some e =>
    cases hv : K.view e.value with
    | none =>
      refine .congr (.of_eq ?_) (iff_of_true trivial (ifHeld_of_wrong hs hv))
      simp only [hv]
    | some a =>
      simp only [hv]
      exact ((h e a hs hv).map _).congr (ifHeld_iff hs hv).symm

/-- A checked change returns if the check on what is held does. -/
theorem returns_updateChecked {f : α → Option (Except String β × α)}
    {g : α → Except String β × α} (h : ∀ e a, s[key]? = some e →
      K.view e.value = some a → Returns (f a) (P a) (g a)) :
    Returns (s.updateChecked K key dflt f) (s.IfHeld K key P) (s.update K key dflt g) := by
  unfold updateChecked update
  cases hs : s[key]? with
  | none => exact (Returns.of_eq rfl).congr (iff_of_true trivial (ifHeld_of_none hs))
  | some e =>
    cases hv : K.view e.value with
    | none =>
      refine .congr (.of_eq ?_) (iff_of_true trivial (ifHeld_of_wrong hs hv))
      simp only [hv]
    | some a =>
      simp only [hv]
      exact ((h e a hs hv).map _).congr (ifHeld_iff hs hv).symm

/-- A change that always returns. -/
theorem upsertChecked_eq {f : α → Option (Except String β × α)} {g : α → Except String β × α}
    (h : ∀ a, f a = some (g a)) : s.upsertChecked K key init f = some (s.upsert K key init g) := by
  unfold upsertChecked upsert
  simp only
  cases K.view (s[key]?.getD ⟨K.wrap init, none⟩).value with
  | none => rfl
  | some a => simp only [h, Option.map_some]

/-- What `read` returns is the default, or of a value that is there. -/
theorem read_eq_ok {g : α → β} {b : β} (h : s.read K key dflt g = .ok b) :
    b = dflt ∨ ∃ e a, s[key]? = some e ∧ K.view e.value = some a ∧ b = g a := by
  unfold read at h
  cases hs : s[key]? with
  | none =>
    simp only [hs, Except.ok.injEq] at h
    exact .inl h.symm
  | some e =>
    cases hv : K.view e.value with
    | none => simp [hs, hv] at h
    | some a =>
      simp only [hs, hv, Except.ok.injEq] at h
      exact .inr ⟨e, a, rfl, hv, h.symm⟩

/-- A result is the default, or comes from what is held. -/
theorem update_eq_ok {g : α → Except String β × α} {b : β}
    (h : (s.update K key dflt g).1 = .ok b) :
    b = dflt ∨ ∃ e a, s[key]? = some e ∧ K.view e.value = some a ∧ (g a).1 = .ok b := by
  unfold update at h
  cases hs : s[key]? with
  | none =>
    simp only [hs, Except.ok.injEq] at h
    exact .inl h.symm
  | some e =>
    cases hv : K.view e.value with
    | none => simp [hs, hv] at h
    | some a =>
      simp only [hs, hv] at h
      exact .inr ⟨e, a, rfl, hv, h⟩

end Patterns

/-- `move` with a push that may panic. -/
def moveChecked (K : Kind α) (src dst : String) (init : α) (take : α → Option β × α)
    (give : β → α → Option α) (s : Store) : Option (Except String (Option β) × Store) :=
  match update K src none (fun a => done (take a)) s with
  | (.error e, s) => some (.error e, s)
  | (.ok none, s) => some (.ok none, s)
  | (.ok (some b), s) => upsertChecked K dst init (fun a => do return done (some b, ← give b a)) s

theorem moveChecked_eq {K : Kind α} {src dst : String} {init : α} {take : α → Option β × α}
    {give : β → α → Option α} {give' : β → α → α} {s : Store}
    (h : ∀ b a, give b a = some (give' b a)) :
    s.moveChecked K src dst init take give = some (s.move K src dst init take give') := by
  unfold moveChecked move
  generalize update K src none (fun a => done (take a)) s = r
  obtain ⟨r, s'⟩ := r
  cases r with
  | error e => rfl
  | ok o =>
    cases o with
    | none => rfl
    | some b => exact upsertChecked_eq fun a => by rw [h]; rfl

/-- `Store.expire`, with the sum of times checked. -/
def expireChecked (now : ℕ) (key : String) (ttl : ℕ) (s : Store) : Option (Bool × Store) :=
  match s[key]? with
  | none => some (false, s)
  | some e =>
    if e.isExpired now then some (false, s)
    else do
      let t ← instantAdd now ttl
      return (true, s.insert key { e with expiresAt := some t })

/-- `Store.set`, with the sum of times checked. -/
def setChecked (now : ℕ) (key : String) (value : Value) (ttl : Option ℕ) (s : Store) :
    Option Store := do
  let expiresAt ← ttl.elim (some none) fun d => (instantAdd now d).map some
  return s.insert key ⟨value, expiresAt⟩

/-- The first of the sets is indexed, and the others are sliced. -/
def combineChecked (f : RedisSet → List RedisSet → ExtTreeSet Bytes compare) (env : Env)
    (keys : List String) (s : Store) : Option (Except String (List Bytes)) :=
  match s.getSets keys with
  | .error e => some (.error e)
  | .ok sets =>
    if sets.isEmpty then some (.ok [])
    else do
      let others ← sliceFrom sets 1
      let first ← sets[0]?
      return .ok (env.memberOrder (f first others).toList)

/-- `EXPIRE` returns if the key is missing or its new time exists. -/
theorem returns_expireChecked (now : ℕ) (key : String) (ttl : ℕ) (s : Store) :
    Returns (s.expireChecked now key ttl) (s.exists_ now key = true → now + ttl < instantEnd)
      (s.expire now key ttl) := by
  unfold expireChecked expire exists_
  cases s[key]? with
  | none => exact (Returns.of_eq rfl).congr (by simp)
  | some e =>
    cases hexp : e.isExpired now with
    | true => exact (Returns.of_eq (by simp [hexp])).congr (by simp [hexp])
    | false =>
      simp only [hexp, Bool.false_eq_true, if_false, Bool.not_false, forall_const]
      refine .congr ?_ (and_iff_left trivial)
      exact (returns_instantAdd now ttl).bind fun _ => .of_eq rfl

/-- `SET` returns if its expiry is a time that exists. -/
theorem returns_setChecked (now : ℕ) (key : String) (value : Value) (ttl : Option ℕ) (s : Store) :
    Returns (s.setChecked now key value ttl) (∀ d ∈ ttl, now + d < instantEnd)
      (s.set now key value ttl) := by
  cases ttl with
  | none => exact (Returns.of_eq rfl).congr (by simp)
  | some d =>
    refine .congr (((returns_instantAdd now d).map some).bind fun _ => .of_eq rfl) ?_
    simp

/-- The first set is only taken where there is one. -/
theorem combineChecked_eq (f : RedisSet → List RedisSet → ExtTreeSet Bytes compare) (env : Env)
    (keys : List String) (s : Store) :
    s.combineChecked f env keys = some (s.combine f env keys) := by
  unfold combineChecked combine
  cases s.getSets keys with
  | error e => rfl
  | ok sets =>
    cases sets with
    | nil => rfl
    | cons t ts =>
      have hslice : sliceFrom (t :: ts) 1 = some ts := sliceFrom_eq (Nat.le_add_left 1 _)
      simp [hslice, bind, Except.bind]
      rfl

/-- The number that `incrby` adds to. -/
def counterAt (key : String) (s : Store) : Option Text.I64 :=
  (Kind.string.view (s[key]?.getD ⟨.string (Utf8.toBytes "0"), none⟩).value).bind parseInt

/-- An addition succeeds if there is a number, and the sum is one. -/
theorem isOk_incrby (key : String) (delta : Text.I64) (s : Store) :
    (s.incrby key delta).1.isOk = true ↔
      ∃ n, s.counterAt key = some n ∧ (Text.checkedAdd n delta).isSome = true := by
  unfold incrby upsert counterAt
  simp only [Kind.string]
  generalize s[key]?.getD ⟨.string (Utf8.toBytes "0"), none⟩ = e
  obtain ⟨v, t⟩ := e
  cases v with
  | string b =>
    simp only [Option.bind_some]
    cases parseInt b with
    | none => simp [Except.isOk, Except.toBool]
    | some n => cases hadd : Text.checkedAdd n delta <;> simp [hadd, Except.isOk, Except.toBool]
  | _ => simp [Except.isOk, Except.toBool]

end Store

/-! ## Formatting -/

/-- The outcome of a method call whose result is formatted with room for its frames. -/
def Outcome.formatChecked {β : Type} (r : Except String β × Store) (fmt : β → Option Frame) :
    Option Outcome :=
  match r.1 with
  | .ok b => (fmt b).map fun f => ⟨f, r.2, []⟩
  | .error e => some ⟨.error e, r.2, []⟩

/-- A reply that has room. -/
theorem Outcome.formatChecked_eq {β : Type} {r : Except String β × Store} {fmt : β → Option Frame}
    {g : β → Frame} (h : ∀ b, r.1 = .ok b → fmt b = some (g b)) :
    formatChecked r fmt = some (change r g) := by
  unfold formatChecked change of
  cases hr : r.1 with
  | ok b => simp only [h b hr, Option.map_some]
  | error e => rfl

/-- `pairsFrame`, whose vector gets its capacity at once. -/
def pairsFrameChecked (S : Sizes) (pairs : List (Bytes × Bytes)) : Option Frame := do
  room S.frame (pairs.length * 2)
  return pairsFrame pairs

/-- `zsetPairsToFrame`, whose vector gets its capacity at once. -/
def zsetPairsToFrameChecked (S : Sizes) (pairs : List (Bytes × F64)) (withscores : Bool) :
    Option Frame := do
  room S.frame (pairs.length * if withscores then 2 else 1)
  return zsetPairsToFrame pairs withscores

/-- There is room for two frames per pair. -/
theorem pairsFrameChecked_eq {S : Sizes} {pairs : List (Bytes × Bytes)}
    (h : 2 * pairs.length * S.frame < 2 ^ 63) :
    pairsFrameChecked S pairs = some (pairsFrame pairs) := by
  rw [pairsFrameChecked, room_eq (by rwa [Nat.mul_comm pairs.length 2])]
  rfl

theorem zsetPairsToFrameChecked_eq {S : Sizes} {pairs : List (Bytes × F64)}
    (h : 2 * pairs.length * S.frame < 2 ^ 63) (withscores : Bool) :
    zsetPairsToFrameChecked S pairs withscores = some (zsetPairsToFrame pairs withscores) := by
  have hroom : (pairs.length * if withscores then 2 else 1) * S.frame < 2 ^ 63 := by
    refine Nat.lt_of_le_of_lt (Nat.mul_le_mul_right S.frame ?_) h
    split <;> omega
  rw [zsetPairsToFrameChecked, room_eq hroom]
  rfl

/-- The slots of this node are counted for the cluster section of `INFO`. -/
def infoChecked (ctx : CommandContext) (now : ℕ) (sect : String) (s : Store) : Option String := do
  if sect = "ALL" ∨ sect = "DEFAULT" ∨ sect = "CLUSTER" then
    match ctx.cluster with
    | none => pure ()
    | some cfg =>
      let _ ← cfg.withTable.myAddr
      let _ ← countSlots (← cfg.withTable.slotRangesFor cfg.myIndex)
  return infoText ctx now sect s

/-- `INFO` counts slots without overflow. -/
theorem infoChecked_eq {ctx : CommandContext} (hcluster : ∀ cfg ∈ ctx.cluster, cfg.Built)
    (now : ℕ) (sect : String) (s : Store) :
    infoChecked ctx now sect s = some (infoText ctx now sect s) := by
  unfold infoChecked
  split
  · cases hc : ctx.cluster with
    | none => rfl
    | some cfg =>
      have hbuilt := hcluster cfg hc
      simp only [hbuilt.myAddr_withTable, hbuilt.slotRangesFor_eq,
        ClusterConfig.Built.countSlots_eq, Option.bind_eq_bind, Option.bind_some]
      rfl
  · rfl

/-! ## Running a request -/

namespace Request

open Outcome Store

/-- `run`, with each operation that may panic checked. There may be an append-only file. -/
def runChecked (S : Sizes) (aof : Bool) (ctx : CommandContext) (env : Env) (s : Store)
    (r : Request) : Option Outcome :=
  match r with
  | info sect => (infoChecked ctx env.now sect s).map fun text => ⟨.bulkStr text, s, []⟩
  | expire key dur => (s.expireChecked env.now key dur).map fun r => ⟨.flag r.1, r.2, []⟩
  | set key val dur nx xx =>
    let found := s.exists_ env.now key
    if nx && found then some ⟨.nullBulk, s, []⟩
    else if xx && !found then some ⟨.nullBulk, s, []⟩
    else (s.setChecked env.now key (.string val) dur).map fun s =>
      ⟨.ok, s, [[Utf8.toBytes "SET", Utf8.toBytes key, val]]⟩
  | incrby key delta _ =>
    -- The record has the absolute value of what was added.
    (if aof && (s.incrby key delta).1.isOk then i64 |delta.1| else some 0).map fun _ =>
      r.run ctx env s
  | push left key values =>
    (s.upsertChecked .list key .new fun l => do
      let l ← values.foldlM (fun l v =>
        if left then ListCode.pushFront l v else some (ListCode.pushBack l v)) l
      return done (l.len, l)).map fun r => of r (fun n : ℕ => .integer n) fun _ =>
        [Utf8.toBytes (if left then "LPUSH" else "RPUSH") :: Utf8.toBytes key :: values]
  | pop left key count withCount =>
    (s.updateChecked .list key [] fun l => (l.popNChecked S
      (if left then RedisList.popFrontN else RedisList.popBackN) (max count 1)).map done).map
        fun r => change r (poppedFrame withCount List.getLast?)
  | lrange key start stop =>
    (s.readChecked .list key [] fun l => l.lrangeChecked start stop).map fun r => query s r .bulks
  | lindex key index =>
    (s.readChecked .list key none fun l => do
      return (← l.listIndexChecked index).bind (ListCode.get l)).map fun r => query s r bulkOrNull
  | lset key index val =>
    (s.updateChecked .list key false fun l => do
      match ← l.listIndexChecked index with
      | none => return (.error "ERR index out of range", l)
      | some i => return done (ListCode.setIndex l i val)).map fun r =>
        change r fun b => if b then .ok else .error "ERR index out of range"
  | linsert key before pivot val =>
    (s.updateChecked .list key 0 fun l => (if before then ListCode.insertBefore l pivot val
      else ListCode.insertAfter l pivot val).map done).map fun r => change r .integer
  | lrem key count val =>
    (s.updateChecked .list key 0 fun l => (l.lremChecked count val).map done).map
      fun r => change r fun n : ℕ => .integer n
  | ltrim key start stop =>
    (s.updateChecked .list key () fun l => (l.ltrimChecked start stop).map fun l =>
      done ((), l)).map fun r => change r fun _ => .ok
  | lmove src dst fromLeft toLeft =>
    (s.moveChecked .list src dst .new
      (fun l => if fromLeft then ListCode.popFront l else ListCode.popBack l) fun val l =>
        if toLeft then ListCode.pushFront l val else some (ListCode.pushBack l val)).map
          fun r => change r bulkOrNull
  | hgetall key => formatChecked (s.hgetall env key, s) (pairsFrameChecked S)
  | hdel key fields =>
    (s.updateChecked .hash key 0 fun h => (h.hdelChecked fields).map done).map
      fun r => change r fun n : ℕ => .integer n
  | srem key members =>
    (s.updateChecked .set key 0 fun t => (t.sremChecked members).map done).map
      fun r => change r fun n : ℕ => .integer n
  | srandmember key count =>
    (s.readChecked .set key [] fun t =>
      t.randomMembersChecked S env ((count.map Subtype.val).getD 1)).map
        fun r => query s r (poppedFrame count.isSome List.head?)
  | spop key count =>
    (s.updateChecked .set key [] fun t => (t.spopChecked env (count.getD 1)).map done).map
      fun r => change r (poppedFrame count.isSome List.head?)
  | combine op ks => (s.combineChecked op.fn env ks).map fun r => query s r .bulks
  | combineStore op _ ks => do
    let _ ← s.combineChecked op.fn env ks
    return r.run ctx env s
  | zrank key member => do
    let _ ← s.readChecked .zset key none fun z => z.zrankChecked member
    return r.run ctx env s
  | zrevrank key member => do
    let _ ← s.readChecked .zset key none fun z => z.zrevrankChecked member
    return r.run ctx env s
  | zrange key start stop rev ws => do
    let r ← s.readChecked .zset key [] fun z => z.zrangeByRankChecked start stop rev
    formatChecked (r, s) fun p => zsetPairsToFrameChecked S p ws
  | zrangebyscore key lo hi offset limit rev ws =>
    formatChecked (s.zrangebyscore key lo hi offset limit rev, s)
      fun p => zsetPairsToFrameChecked S p ws
  | zpopmin key count => do
    let r ← s.updateChecked .zset key [] fun z => (z.zpopChecked S ZSet.zpopmin count).map done
    formatChecked r fun p => zsetPairsToFrameChecked S p true
  | zpopmax key count => do
    let r ← s.updateChecked .zset key [] fun z => (z.zpopChecked S ZSet.zpopmax count).map done
    formatChecked r fun p => zsetPairsToFrameChecked S p true
  | zremrangebyrank key start stop =>
    (s.updateChecked .zset key 0 fun z => (z.zremrangebyrankChecked start stop).map done).map
      fun r => change r fun n : ℕ => .integer n
  | _ => some (r.run ctx env s)

/-- None of the operations of the request fails. -/
def Safe (S : Sizes) (aof : Bool) (env : Env) (s : Store) : Request → Prop
  | expire key dur => s.exists_ env.now key = true → env.now + dur < instantEnd
  | set key _ dur nx xx =>
    (nx && s.exists_ env.now key || xx && !s.exists_ env.now key) = true ∨
      ∀ d ∈ dur, env.now + d < instantEnd
  | incrby key delta _ => aof = true → delta.1 = Text.i64Min →
      ∀ n, s.counterAt key = some n → n.1 < 0
  | pop _ key count _ => s.IfHeld .list key fun _ => max count 1 * S.bytes < 2 ^ 63
  | lrange key _ stop => s.IfHeld .list key fun _ => stop ≠ Text.i64Max
  | lrem key count _ => s.IfHeld .list key fun _ => count.1 ≠ Text.i64Min
  | ltrim key _ stop => s.IfHeld .list key fun l => l.len = 0 ∨ -(l.len : ℤ) ≤ stop
  | srandmember key count => s.IfHeld .set key fun t => t.len = 0 ∨
      0 ≤ (count.map Subtype.val).getD 1 ∨
        ((count.map Subtype.val).getD 1).natAbs * S.bytes < 2 ^ 63
  | zrange key _ stop _ _ => s.IfHeld .zset key fun _ => stop ≠ Text.i64Max
  | zpopmin key count => s.IfHeld .zset key fun _ => count * S.scored < 2 ^ 63
  | zpopmax key count => s.IfHeld .zset key fun _ => count * S.scored < 2 ^ 63
  | zremrangebyrank key _ stop => s.IfHeld .zset key fun _ => stop ≠ Text.i64Max
  | _ => True

/-- The numbers that a request reads are of the range of `i64`. -/
def IntsFit : Request → Prop
  | lrange _ start stop => IsI64 start ∧ IsI64 stop
  | lindex _ index => IsI64 index
  | lset _ index _ => IsI64 index
  | ltrim _ start stop => IsI64 start ∧ IsI64 stop
  | zrange _ start stop _ _ => IsI64 start ∧ IsI64 stop
  | zremrangebyrank _ start stop => IsI64 start ∧ IsI64 stop
  | _ => True

end Request

/-! ## Exactly under the condition -/

section Room

variable {S : Sizes} {s : Store} {key : String} {e : Entry} {α : Type} {K : Kind α} {a : α}

/-- A held value leaves room for two frames per element. -/
theorem Store.Fits.held (h : s.Fits S) (hs : s[key]? = some e) (hv : K.view e.value = some a) :
    2 * (K.wrap a).size * S.frame < 2 ^ 63 := by
  rw [K.wrap_view hv]
  exact h key e hs

/-- A held value has fewer than `2 ^ 63` elements. -/
theorem Store.Fits.size_lt (h : s.Fits S) (hs : s[key]? = some e)
    (hv : K.view e.value = some a) : (K.wrap a).size < 2 ^ 63 := by
  have hle := Nat.le_mul_of_pos_right (2 * (K.wrap a).size) S.frame_pos
  have hroom := h.held hs hv
  omega

/-- There is room for the frames of pairs that are no more than the elements. -/
theorem Store.Fits.pairs (h : s.Fits S) (hs : s[key]? = some e) (hv : K.view e.value = some a)
    {n : ℕ} (hn : n ≤ (K.wrap a).size) : 2 * n * S.frame < 2 ^ 63 := by
  have hle := Nat.mul_le_mul_right S.frame (Nat.mul_le_mul_left 2 hn)
  exact Nat.lt_of_le_of_lt hle (h.held hs hv)

end Room

namespace ZSet

variable {z : ZSet}

/-- A range has at most the members of the set. -/
theorem length_zrangeByRank_le (start stop : ℤ) (rev : Bool) :
    (z.zrangeByRank start stop rev).length ≤ z.len := by
  rw [← length_allWithScores]
  simp only [zrangeByRank]
  split
  · exact Nat.zero_le _
  · split
    · rw [List.length_reverse]
      exact ((List.take_sublist _ _).trans (List.drop_sublist _ _)).length_le
    · exact ((List.take_sublist _ _).trans (List.drop_sublist _ _)).length_le

theorem length_zrangebyscore_le (lo hi : ScoreBound) (offset : ℕ) (limit : Option ℕ)
    (rev : Bool) : (z.zrangebyscore lo hi offset limit rev).length ≤ z.len := by
  have hitems : ((if rev then (z.inRange lo hi).reverse else z.inRange lo hi).drop offset).length ≤
      z.len := by
    rw [← length_allWithScores]
    refine (List.drop_sublist _ _).length_le.trans ?_
    split
    · rw [List.length_reverse]
      exact List.length_filter_le _ _
    · exact List.length_filter_le _ _
  cases limit with
  | none => exact hitems
  | some n => exact (List.take_sublist _ _).length_le.trans hitems

/-- A pop gives at most the members of the set. -/
theorem length_zpop_le {pick : ZSet → Option ScoreKey}
    (hpick : ∀ (z : ZSet) (k : ScoreKey), pick z = some k → k ∈ z.byScore) :
    ∀ (n : ℕ) (z : ZSet), (zpop pick n z).1.length ≤ z.len
  | 0, _ => Nat.zero_le _
  | n + 1, z => by
    unfold zpop
    cases hk : pick z with
    | none => exact Nat.zero_le _
    | some k =>
      have ih := length_zpop_le hpick n (z.remove k.member)
      have hlen := len_remove (hpick z k hk)
      simp only [List.length_cons]
      omega

theorem length_zpopmin_le (n : ℕ) : (z.zpopmin n).1.length ≤ z.len :=
  length_zpop_le (fun _ _ hk => ExtTreeSet.min?_mem hk) n z

theorem length_zpopmax_le (n : ℕ) : (z.zpopmax n).1.length ≤ z.len :=
  length_zpop_le (fun _ _ hk => ExtTreeSet.max?_mem hk) n z

end ZSet

namespace Request

open Outcome Store

section Cases

variable {S : Sizes} {aof : Bool} {ctx : CommandContext} {env : Env} {s : Store}

/-- `SET` returns if its expiry is a time that exists. -/
theorem returns_set (key : String) (val : Bytes) (dur : Option ℕ) (nx xx : Bool) :
    Returns ((Request.set key val dur nx xx).runChecked S aof ctx env s)
      ((Request.set key val dur nx xx).Safe S aof env s)
      ((Request.set key val dur nx xx).run ctx env s) := by
  simp only [runChecked, Safe, run]
  cases hnx : nx && s.exists_ env.now key with
  | true => exact (Returns.of_eq rfl).congr (by simp)
  | false =>
    cases hxx : xx && !s.exists_ env.now key with
    | true => exact (Returns.of_eq rfl).congr (by simp)
    | false =>
      simp only [Bool.or_false, Bool.false_eq_true, if_false, false_or]
      exact (returns_setChecked env.now key (.string val) dur s).map _

/-- The least number has no absolute value. -/
theorem returns_incrby (key : String) (delta : Text.I64) (record : Record) :
    Returns ((incrby key delta record).runChecked S aof ctx env s)
      ((incrby key delta record).Safe S aof env s) ((incrby key delta record).run ctx env s) := by
  obtain ⟨hlo, hhi⟩ := delta.2
  have habs : (-2 ^ 63 ≤ |delta.1| ∧ |delta.1| < 2 ^ 63) ↔ delta.1 ≠ Text.i64Min := by
    rw [abs_eq_max_neg]
    simp only [Text.i64Min, Text.i64Max] at *
    omega
  -- With the least number, the sum is a number unless the counter is negative.
  have hsum (hmin : delta.1 = Text.i64Min) (n : Text.I64) :
      (Text.checkedAdd n delta).isSome = true ↔ 0 ≤ n.1 := by
    have hn := n.2
    simp only [Text.i64Min, Text.i64Max] at hmin hn
    rw [Text.checkedAdd, Text.fits, hmin]
    split
    · next h =>
      simp only [Text.i64Min, Text.i64Max] at h
      simp only [Option.isSome_some, true_iff]
      omega
    · next h =>
      simp only [Text.i64Min, Text.i64Max] at h
      simp only [Option.isSome_none, Bool.false_eq_true, false_iff]
      omega
  have hcheck : Returns (if aof && (s.incrby key delta).1.isOk then i64 |delta.1| else some 0)
      (if (aof && (s.incrby key delta).1.isOk) = true then delta.1 ≠ Text.i64Min else True)
      (if aof && (s.incrby key delta).1.isOk then |delta.1| else 0) :=
    .ite (fun _ => (returns_i64 _).congr habs) fun _ => .of_eq rfl
  refine (hcheck.map fun _ => (incrby key delta record).run ctx env s).congr ?_
  have hok := isOk_incrby key delta s
  cases aof with
  | false => simp [Safe]
  | true =>
    simp only [Safe, Bool.true_and, forall_const]
    constructor
    · intro hif hmin n hn
      by_contra hge
      rw [if_pos (hok.mpr ⟨n, hn, (hsum hmin n).mpr (by omega)⟩)] at hif
      exact hif hmin
    · intro hsafe
      split
      · next hisOk =>
        intro hmin
        obtain ⟨n, hn, hsome⟩ := hok.mp hisOk
        have hneg := hsafe hmin n hn
        have hpos := (hsum hmin n).mp hsome
        omega
      · trivial

/-- A push has no check that fails. -/
theorem returns_push (left : Bool) (key : String) (values : List Bytes) :
    (push left key values).runChecked S aof ctx env s =
      some ((push left key values).run ctx env s) := by
  have hfold (l : RedisList) : values.foldlM (fun l v =>
      if left then ListCode.pushFront l v else some (ListCode.pushBack l v)) l =
      some (values.foldl (if left then RedisList.pushFront else RedisList.pushBack) l) := by
    induction values generalizing l with
    | nil => rfl
    | cons v values ih =>
      rw [List.foldlM_cons, List.foldl_cons, ← ih]
      cases left with
      | true => simp [ListCode.pushFront_eq]
      | false => simp [ListCode.pushBack_eq]
  rw [runChecked, upsertChecked_eq (g := fun l => done
    ((values.foldl (if left then RedisList.pushFront else RedisList.pushBack) l).len,
      values.foldl (if left then RedisList.pushFront else RedisList.pushBack) l))
    fun l => by rw [hfold]; rfl]
  cases left <;> rfl

/-- A pop from a sorted set returns if there is room for its count. -/
theorem returns_zpop {pop : ZSet → ℕ → List (Bytes × F64) × ZSet} (hfits : s.Fits S)
    (hpop : ∀ (z : ZSet) (n : ℕ), (pop z n).1.length ≤ z.len) (key : String) (count : ℕ) :
    Returns (do
      let r ← s.updateChecked .zset key [] fun z => (z.zpopChecked S pop count).map done
      formatChecked r fun p => zsetPairsToFrameChecked S p true)
      (s.IfHeld .zset key fun _ => count * S.scored < 2 ^ 63)
      (change (s.update .zset key [] fun z => done (pop z count))
        fun p => zsetPairsToFrame p true) := by
  refine .congr ((returns_updateChecked fun e z hs hv =>
    (ZSet.returns_zpopChecked S pop count).map done).bind fun _ => .of_eq ?_) (and_iff_left trivial)
  refine formatChecked_eq fun pairs hpairs => zsetPairsToFrameChecked_eq ?_ true
  rcases update_eq_ok hpairs with rfl | ⟨e, z, hs, hv, heq⟩
  · simp
  · obtain rfl : (pop z count).1 = pairs := Except.ok.inj heq
    exact hfits.pairs hs hv (hpop z count)

/-- A request returns exactly if it is safe, and then what `run` says. -/
theorem returns_runChecked {r : Request} (hcluster : ∀ cfg ∈ ctx.cluster, cfg.Built)
    (hfits : s.Fits S) (hints : r.IntsFit) :
    Returns (r.runChecked S aof ctx env s) (r.Safe S aof env s) (r.run ctx env s) := by
  -- A method that never panics, whatever the value is.
  have free {α : Type} {K : Kind α} {key : String} : s.IfHeld K key (fun _ => True) ↔ True :=
    iff_true_intro fun _ _ _ _ => trivial
  cases r with
  | info sect =>
    rw [runChecked, infoChecked_eq hcluster]
    exact .of_eq rfl
  | expire key dur => exact (returns_expireChecked env.now key dur s).map _
  | set key val dur nx xx => exact returns_set key val dur nx xx
  | incrby key delta record => exact returns_incrby key delta record
  | push left key values => exact .of_eq (returns_push left key values)
  | pop left key count withCount =>
    cases left with
    | true =>
      exact (returns_updateChecked fun e l hs hv =>
        (RedisList.returns_popNChecked S RedisList.popFrontN (max count 1)).map done).map _
    | false =>
      exact (returns_updateChecked fun e l hs hv =>
        (RedisList.returns_popNChecked S RedisList.popBackN (max count 1)).map done).map _
  | lrange key start stop =>
    refine (returns_readChecked fun e l hs hv => ?_).map _
    exact RedisList.returns_lrangeChecked (hfits.size_lt hs hv) hints.1 hints.2
  | lindex key index =>
    refine ((returns_readChecked fun e l hs hv => .of_eq ?_).congr free).map _
    rw [RedisList.listIndexChecked_eq (hfits.size_lt hs hv) hints]
    cases l <;> rfl
  | lset key index val =>
    refine ((returns_updateChecked fun e l hs hv => .of_eq ?_).congr free).map _
    rw [RedisList.listIndexChecked_eq (hfits.size_lt hs hv) hints]
    cases hi : Store.listIndex l index with
    | none => rfl
    | some i => simp [ListCode.setIndex_eq]
  | linsert key before pivot val =>
    refine ((returns_updateChecked fun e l hs hv => .of_eq ?_).congr free).map _
    cases before with
    | true => simp [ListCode.insertBefore_eq]
    | false => simp [ListCode.insertAfter_eq]
  | lrem key count val =>
    exact (returns_updateChecked fun e l hs hv =>
      (RedisList.returns_lremChecked count val).map done).map _
  | ltrim key start stop =>
    refine (returns_updateChecked fun e l hs hv => .map ?_ fun l => done ((), l)).map _
    exact RedisList.returns_ltrimChecked (hfits.size_lt hs hv) hints.1 hints.2
  | lmove src dst fromLeft toLeft =>
    have hgive (val : Bytes) (l : RedisList) :
        (if toLeft then ListCode.pushFront l val else some (ListCode.pushBack l val)) =
          some (if toLeft then l.pushFront val else l.pushBack val) := by
      cases toLeft with
      | true => exact ListCode.pushFront_eq
      | false => exact congrArg some ListCode.pushBack_eq
    rw [runChecked, moveChecked_eq hgive, ListCode.popFront_eq, ListCode.popBack_eq]
    exact .of_eq rfl
  | hgetall key =>
    refine .of_eq (formatChecked_eq fun pairs hpairs => pairsFrameChecked_eq ?_)
    rcases read_eq_ok hpairs with rfl | ⟨e, h, hs, hv, rfl⟩
    · simp
    · exact hfits.pairs hs hv (RedisHash.length_allPairs env h).le
  | hdel key fields =>
    refine ((returns_updateChecked fun e h hs hv => .of_eq ?_).congr free).map _
    rw [RedisHash.hdelChecked_eq (hfits.size_lt hs hv)]
    rfl
  | srem key members =>
    refine ((returns_updateChecked fun e t hs hv => .of_eq ?_).congr free).map _
    rw [RedisSet.sremChecked_eq (hfits.size_lt hs hv)]
    rfl
  | srandmember key count =>
    refine (returns_readChecked fun e t hs hv => ?_).map _
    refine RedisSet.returns_randomMembersChecked S ?_
    cases count with
    | none => exact ⟨by decide, by decide⟩
    | some c => exact c.2
  | spop key count =>
    refine ((returns_updateChecked fun e t hs hv => .of_eq ?_).congr free).map _
    rw [RedisSet.spopChecked_eq]
    rfl
  | combine op ks =>
    rw [runChecked, combineChecked_eq]
    exact .of_eq rfl
  | combineStore op dst ks =>
    rw [runChecked, combineChecked_eq]
    exact .of_eq rfl
  | zrank key member =>
    have hread : s.readChecked .zset key none (fun z => z.zrankChecked member) =
        some (s.zrank key member) := by
      refine ((returns_readChecked fun e z hs hv => .of_eq ?_).congr free).ok trivial
      exact ZSet.zrankChecked_eq (hfits.size_lt hs hv) member
    exact .bind_eq hread (.of_eq rfl)
  | zrevrank key member =>
    have hread : s.readChecked .zset key none (fun z => z.zrevrankChecked member) =
        some (s.zrevrank key member) := by
      refine ((returns_readChecked fun e z hs hv => .of_eq ?_).congr free).ok trivial
      exact ZSet.zrevrankChecked_eq (hfits.size_lt hs hv) member
    exact .bind_eq hread (.of_eq rfl)
  | zrange key start stop rev ws =>
    refine .congr ((returns_readChecked fun e z hs hv => ?_).bind fun _ => .of_eq
      (formatChecked_eq fun pairs hpairs => zsetPairsToFrameChecked_eq ?_ ws))
      (and_iff_left trivial)
    · exact ZSet.returns_zrangeByRankChecked (hfits.size_lt hs hv) hints.1 hints.2 rev
    · rcases read_eq_ok hpairs with rfl | ⟨e, z, hs, hv, rfl⟩
      · simp
      · exact hfits.pairs hs hv (ZSet.length_zrangeByRank_le start stop rev)
  | zrangebyscore key lo hi offset limit rev ws =>
    refine .of_eq (formatChecked_eq fun pairs hpairs => zsetPairsToFrameChecked_eq ?_ ws)
    rcases read_eq_ok hpairs with rfl | ⟨e, z, hs, hv, rfl⟩
    · simp
    · exact hfits.pairs hs hv (ZSet.length_zrangebyscore_le lo hi offset limit rev)
  | zpopmin key count => exact returns_zpop hfits (fun _ n => ZSet.length_zpopmin_le n) key count
  | zpopmax key count => exact returns_zpop hfits (fun _ n => ZSet.length_zpopmax_le n) key count
  | zremrangebyrank key start stop =>
    refine (returns_updateChecked fun e z hs hv => .map ?_ done).map _
    exact ZSet.returns_zremrangebyrankChecked (hfits.size_lt hs hv) hints.1 hints.2
  | _ => exact .of_eq rfl

end Cases

end Request

end LoonyRedis
