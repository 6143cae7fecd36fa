import LoonyRedis.Determinism
import LoonyRedis.Lib.Footprint

/-!
# The keys of a command

Which keys of the store a request reads or writes (`Request.keyList`), and that it depends on
nothing else and changes nothing else (`Request.local_run`). Some requests are about the whole
store, as `KEYS` and `FLUSHALL`.

The keys of a request are read from some of the arguments of the command. `keyArgs` says from
which, and `keyList_of_readCommand` that it does so for every command.
-/

namespace LoonyRedis

open Std Store Footprint

/-! ## Requests -/

namespace Request

/-- The keys that a request may read or write, or nothing if it is about all of them. -/
def keyList : Request → Option (List String)
  | answer _ => some []
  | info _ | keys | dbsize | flush => none
  | del ks | existsKeys ks | combine _ ks => some ks
  | mget ks => some (ks.filterMap id)
  | mset pairs => some (pairs.map Prod.fst)
  | lmove src dst _ _ | smove src dst _ => some [src, dst]
  | combineStore _ dst ks => some (dst :: ks)
  | debugObject key | type key | expire key _ | ttl key | pttl key | persist key
  | get key | set key _ _ _ _ | strlen key | append key _ | incrby key _ _ | getset key _ | setnx key _
  | push _ key _ | pop _ key _ _ | llen key | lrange key _ _ | lindex key _ | lset key _ _
  | linsert key _ _ _ | lrem key _ _ | ltrim key _ _
  | hset key _ | hget key _ | hmget key _ | hgetall key | hdel key _ | hlen key | hexists key _
  | hkeys key | hvals key | hsetnx key _ _ | hincrby key _ _ | hincrbyfloat key _ _
  | sadd key _ | smembers key | sismember key _ | srem key _ | scard key | srandmember key _
  | spop key _
  | zadd key _ _ | zscore key _ | zrank key _ | zrevrank key _ | zcard key | zcount key _ _
  | zincrby key _ _ | zrem key _ | zrange key _ _ _ _ | zrangebyscore key _ _ _ _ _ _
  | zpopmin key _ | zpopmax key _ | zremrangebyrank key _ _ | zremrangebyscore key _ _ => some [key]

/-- The same as a set. -/
def touched (r : Request) : Set String := {k | ∀ ks, r.keyList = some ks → k ∈ ks}

/-- The keys of a request are those in its list. -/
theorem touched_of_keyList {r : Request} {ks : List String} (h : r.keyList = some ks) :
    r.touched = {k | k ∈ ks} := by
  ext k
  simp [touched, h]

end Request

/-! ## Store methods -/

namespace Store

variable {α β γ : Type} {key : String} {ks : Set String}

/-- The entry of a key. -/
def look (s : Store) (k : String) : Option Entry := s[k]?

/-- Stores that agree on all keys are the same. -/
theorem agree_univ {s t : Store} (h : Agree look Set.univ s t) : s = t := by
  ext k : 1
  exact h k trivial

/-- An operation that looks one entry up, and removes or writes it, or neither. -/
theorem local_of_entry {f : Store → γ × Store} (hkey : key ∈ ks)
    (g : Option Entry → γ × Option (Option Entry))
    (hf : ∀ s, f s = ((g s[key]?).1, match (g s[key]?).2 with
      | none => s
      | some none => s.erase key
      | some (some e) => s.insert key e)) : Local look f ks where
  result {s t} hst := by
    have heq : s[key]? = t[key]? := hst key hkey
    rw [hf, hf, heq]
  inside {s t} hst k hk := by
    have heq : s[key]? = t[key]? := hst key hkey
    have hat : s[k]? = t[k]? := hst k hk
    rw [hf, hf, heq]
    cases (g t[key]?).2 with
    | none => exact hat
    | some o =>
      cases o with
      | none => simp only [look, FinMap.getElem?_erase, hat]
      | some e => simp only [look, FinMap.getElem?_insert, hat]
  outside s {k} hk := by
    have hne : key ≠ k := fun heq => hk (heq ▸ hkey)
    rw [hf]
    cases (g s[key]?).2 with
    | none => rfl
    | some o =>
      cases o with
      | none => simp only [look, FinMap.getElem?_erase, if_neg hne]
      | some e => simp only [look, FinMap.getElem?_insert, if_neg hne]

section Patterns

variable {K : Kind α} {dflt : β} {init : α} {f : α → Except String β × α}

/-- A change in place touches its key. -/
theorem local_update (hkey : key ∈ ks) : Local look (update K key dflt f) ks := by
  refine local_of_entry hkey (fun o => o.elim (.ok dflt, none) fun e =>
    (K.view e.value).elim (.error wrongType, none) fun a =>
      ((f a).1, some (some { e with value := K.wrap (f a).2 }))) fun s => ?_
  unfold update
  cases s[key]? with
  | none => rfl
  | some e =>
    simp only [Option.elim_some]
    cases K.view e.value <;> rfl

/-- A change that creates the key touches its key. -/
theorem local_upsert (hkey : key ∈ ks) : Local look (upsert K key init f) ks := by
  refine local_of_entry hkey (fun o =>
    let e := o.getD ⟨K.wrap init, none⟩
    (K.view e.value).elim (.error wrongType, none) fun a =>
      ((f a).1, some (some { e with value := K.wrap (f a).2 }))) fun s => ?_
  unfold upsert
  simp only
  cases K.view (s[key]?.getD ⟨K.wrap init, none⟩).value <;> rfl

/-- A read looks at its key only. -/
theorem read_congr {g : α → β} {s t : Store} (h : s[key]? = t[key]?) :
    read K key dflt g s = read K key dflt g t := by
  unfold read
  rw [h]

/-- A move touches its two keys. -/
theorem local_move {src dst : String} {take : α → Option β × α} {give : β → α → α}
    (hsrc : src ∈ ks) (hdst : dst ∈ ks) : Local look (move K src dst init take give) ks := by
  have htake : Local look (update K src none fun a => done (take a)) ks := local_update hsrc
  refine (htake.bind (g := fun r s => match r with
    | .error e => (.error e, s)
    | .ok none => (.ok none, s)
    | .ok (some b) => upsert K dst init (fun a => done (some b, give b a)) s) ?_).congr ?_
  · intro r
    cases r with
    | error e => exact .query fun _ _ _ => rfl
    | ok o =>
      cases o with
      | none => exact .query fun _ _ _ => rfl
      | some b => exact local_upsert hdst
  · intro s
    unfold move
    rcases update K src none (fun a => done (take a)) s with ⟨r, s'⟩
    cases r with
    | error e => rfl
    | ok o => cases o <;> rfl

end Patterns

/-! The methods that look at the time. -/

section Times

variable {now : ℕ}

theorem local_get (hkey : key ∈ ks) : Local look (get now key) ks := by
  refine local_of_entry hkey (fun o => o.elim (none, none) fun e =>
    if e.isExpired now then (none, some none) else (some e.value, none)) fun s => ?_
  unfold get
  cases s[key]? with
  | none => rfl
  | some e =>
    simp only [Option.elim_some]
    split <;> rfl

/-- An overwriting touches its key. -/
theorem local_set {v : Value} {ttl : Option ℕ} (hkey : key ∈ ks) (c : γ) :
    Local look (fun s => (c, s.set now key v ttl)) ks :=
  local_of_entry hkey (fun _ => (c, some (some ⟨v, ttl.map (now + ·)⟩))) fun _ => rfl

theorem local_erase (hkey : key ∈ ks) :
    Local look (fun s : Store => ((if s.contains key then 1 else 0 : ℕ), s.erase key)) ks := by
  refine local_of_entry hkey (fun o => (if o.isSome then 1 else 0, some none)) fun s => ?_
  rw [ExtTreeMap.contains_eq_isSome_getElem?]

theorem local_expire {ttl : ℕ} (hkey : key ∈ ks) : Local look (expire now key ttl) ks := by
  refine local_of_entry hkey (fun o => o.elim (false, none) fun e =>
    if e.isExpired now then (false, none)
    else (true, some (some { e with expiresAt := some (now + ttl) }))) fun s => ?_
  unfold expire
  cases s[key]? with
  | none => rfl
  | some e =>
    simp only [Option.elim_some]
    split <;> rfl

theorem exists_congr {s t : Store} (h : s[key]? = t[key]?) :
    s.exists_ now key = t.exists_ now key := by
  unfold exists_
  rw [h]

theorem pttl_congr {s t : Store} (h : s[key]? = t[key]?) : s.pttl now key = t.pttl now key := by
  unfold pttl
  rw [h]

theorem typeOf_congr {s t : Store} (h : s[key]? = t[key]?) : s.typeOf now key = t.typeOf now key := by
  unfold typeOf
  rw [h]

theorem debugObject_congr {s t : Store} (h : s[key]? = t[key]?) :
    s.debugObject now key = t.debugObject now key := by
  unfold debugObject
  rw [h]

theorem local_persist (hkey : key ∈ ks) : Local look (persist key) ks := by
  refine local_of_entry hkey (fun o => o.elim (false, none) fun e =>
    if e.expiresAt.isSome then (true, some (some { e with expiresAt := none }))
    else (false, none)) fun s => ?_
  unfold persist
  cases s[key]? with
  | none => rfl
  | some e =>
    simp only [Option.elim_some]
    split <;> rfl

end Times

/-! The methods with several keys. -/

/-- A removal touches the keys that it names. -/
theorem local_del : ∀ {l : List String}, (∀ k ∈ l, k ∈ ks) → Local look (del l) ks
  | [], _ => .query fun _ _ _ => rfl
  | k :: l, h =>
    ((local_erase (h k (by simp))).bind fun n =>
      (local_del fun k' hk' => h k' (by simp [hk'])).map (n + ·)).congr fun _ => rfl

/-- The sets at the keys, and nothing else. -/
theorem getSets_congr : ∀ {l : List String} {s t : Store}, (∀ k ∈ l, s[k]? = t[k]?) →
    s.getSets l = t.getSets l
  | [], _, _, _ => rfl
  | k :: l, s, t, h => by
    have hrest : s.getSets l = t.getSets l := getSets_congr fun k' hk' => h k' (by simp [hk'])
    unfold getSets at hrest ⊢
    rw [List.mapM_cons, List.mapM_cons, hrest, read_congr (h k (by simp))]

theorem combine_congr {f : RedisSet → List RedisSet → ExtTreeSet Bytes compare} {env : Env}
    {l : List String} {s t : Store} (h : ∀ k ∈ l, s[k]? = t[k]?) :
    combine f env l s = combine f env l t := by
  unfold combine
  rw [getSets_congr h]

/-- What `combineStore` makes of the combined set. -/
def storeResult (dst : String) : Except String (List Bytes) → Op ℕ
  | .error e, s => (.error e, s)
  | .ok result, s =>
    (.ok result.length, s.insert dst ⟨.set (RedisSet.new.sadd result).2, none⟩)

/-- A stored combination touches the destination and looks at the sources. -/
theorem local_combineStore {f : RedisSet → List RedisSet → ExtTreeSet Bytes compare} {env : Env}
    {dst : String} {l : List String} (hdst : dst ∈ ks) (hl : ∀ k ∈ l, k ∈ ks) :
    Local look (combineStore f env dst l) ks := by
  have hquery : Local look (fun s => (combine f env l s, s)) ks :=
    .query fun s t h => combine_congr fun k hk => h k (hl k hk)
  refine (hquery.bind (g := storeResult dst) ?_).congr ?_
  · intro r
    cases r with
    | error e => exact .query fun _ _ _ => rfl
    | ok result =>
      exact local_of_entry hdst (fun _ => (.ok result.length,
        some (some ⟨.set (RedisSet.new.sadd result).2, none⟩))) fun _ => rfl
  · intro s
    unfold combineStore
    cases combine f env l s <;> rfl

end Store

/-! What the handlers of strings make of a value. -/

/-- What `GET` answers for a value. -/
def getReply : Option Value → Frame
  | some (.string b) => .bulk (some b)
  | some _ => .error wrongType
  | none => .nullBulk

/-- What `STRLEN` answers for a value. -/
def strlenReply : Option Value → Frame
  | some (.string b) => .integer b.length
  | some _ => .error wrongType
  | none => .integer 0

/-- What `MGET` answers for a value : another type is null, not an error. -/
def mgetItem : Option Value → Frame
  | some (.string b) => .bulk (some b)
  | _ => .nullBulk

/-- What `GETSET` answers for a value. -/
def getsetOld : Option Value → Option Bytes
  | some (.string b) => some b
  | _ => none

section Loops

variable {now : ℕ} {key : String} {ks : Set String}

/-- `MGET` can remove each of its keys. -/
theorem local_mgetLoop : ∀ {l : List (Option String)}, (∀ k ∈ l.filterMap id, k ∈ ks) →
    Local look (mgetLoop now l) ks
  | [], _ => .query fun _ _ _ => rfl
  | none :: l, h => (local_mgetLoop (l := l) (by simpa using h)).map (List.cons .nullBulk)
  | some k :: l, h =>
    ((local_get (h k (by simp))).bind fun v =>
      (local_mgetLoop fun k' hk' => h k' (by simp at hk' ⊢; exact Or.inr hk')).map
        (List.cons (mgetItem v))).congr fun _ => rfl

/-- `MSET` touches the keys that it writes. -/
theorem local_msetLoop : ∀ {pairs : List (String × Bytes)}, (∀ p ∈ pairs, p.1 ∈ ks) →
    Local look (fun s => ((), msetLoop now pairs s)) ks
  | [], _ => .query fun _ _ _ => rfl
  | p :: pairs, h =>
    ((local_set (h p (by simp)) ()).bind fun _ =>
      local_msetLoop fun q hq => h q (by simp [hq])).congr fun _ => rfl

/-- Setting fields touches the key of the hash. -/
theorem local_hsetLoop (hkey : key ∈ ks) : ∀ pairs, Local look (hsetLoop key pairs) ks
  | [] => .query fun _ _ _ => rfl
  | (f, v) :: pairs => by
    have hset : Local look (Store.hset key f v) ks := local_upsert hkey
    refine (hset.bind (g := fun r s => match r with
      | .error e => (.error e, s)
      | .ok n => ((hsetLoop key pairs s).1.map (n + ·), (hsetLoop key pairs s).2)) ?_).congr ?_
    · intro r
      cases r with
      | error e => exact .query fun _ _ _ => rfl
      | ok n => exact (local_hsetLoop hkey pairs).map (Except.map (n + ·))
    · intro s
      rw [hsetLoop]
      rcases s.hset key f v with ⟨r, s'⟩
      cases r <;> rfl

/-- Adding members touches the key of the sorted set. -/
theorem local_zaddLoop {flags : ZaddFlags} (hkey : key ∈ ks) :
    ∀ steps, Local look (zaddLoop key flags steps) ks
  | [] => .query fun _ _ _ => rfl
  | .skip :: steps => local_zaddLoop hkey steps
  | .bad :: _ => .query fun _ _ _ => rfl
  | .add score member :: steps => by
    have hadd : Local look (fun s => s.zadd key score member flags.nx flags.xx flags.gt flags.lt) ks :=
      local_upsert hkey
    refine (hadd.bind (g := fun r s => match r with
      | .error e => (.error e, s)
      | .ok (a, c) => ((zaddLoop key flags steps s).1.map fun r => (a + r.1, c + r.2),
          (zaddLoop key flags steps s).2)) ?_).congr ?_
    · intro r
      cases r with
      | error e => exact .query fun _ _ _ => rfl
      | ok p => exact (local_zaddLoop hkey steps).map (Except.map fun r => (p.1 + r.1, p.2 + r.2))
    · intro s
      rw [zaddLoop]
      rcases s.zadd key score member flags.nx flags.xx flags.gt flags.lt with ⟨r, s'⟩
      cases r <;> rfl

end Loops

/-- The outcome of a local method. -/
theorem local_of {β : Type} {o : Op β} {ks : Set String} {fmt : β → Frame} {log : β → List Record}
    (ho : Local look o ks) : Local look
      (fun s => ((Outcome.of (o s) fmt log).reply, (Outcome.of (o s) fmt log).store)) ks := by
  refine (ho.map (TreatsAsAbsent.replyOf fmt)).congr fun s => ?_
  rw [TreatsAsAbsent.reply_of, Request.store_of]

/-- A lookup as a request. -/
theorem local_query {β : Type} {q : Store → Except String β} {ks : Set String} {fmt : β → Frame}
    (hq : ∀ s t, Agree look ks s t → q s = q t) : Local look
      (fun s => ((Outcome.query s (q s) fmt).reply, (Outcome.query s (q s) fmt).store)) ks :=
  local_of (Local.query hq)

/-- A request depends on its keys only and changes only them. -/
theorem Request.local_run (ctx : CommandContext) (env : Env) (r : Request) : Local look
    (fun s => ((r.run ctx env s).reply, (r.run ctx env s).store)) r.touched := by
  cases hkeys : r.keyList with
  | none =>
    have huniv : r.touched = Set.univ := by
      ext k
      simp [touched, hkeys]
    rw [huniv]
    refine ⟨fun h => ?_, fun h => ?_, fun s k hk => absurd trivial hk⟩
    · rw [agree_univ h]
    · rw [agree_univ h]
      exact fun _ _ => rfl
  | some ks =>
    rw [touched_of_keyList hkeys]
    have hone : ∀ {key : String}, some [key] = some ks → key ∈ {k | k ∈ ks} := by
      intro key h
      change key ∈ ks
      rw [← Option.some.inj h]
      exact List.mem_singleton_self key
    cases r with
    | info | keys | dbsize | flush => cases hkeys
    | answer f => exact .query fun _ _ _ => rfl
    | llen | lrange | lindex | hget | hgetall | hlen | hexists | hkeys | hvals | smembers | sismember
    | scard | srandmember | zscore | zrank | zrevrank | zcard | zcount | zrange
    | zrangebyscore => exact local_query fun s t h => read_congr (h _ (hone hkeys))
    | append | incrby | hsetnx | hincrby | hincrbyfloat | sadd | zincrby =>
      exact local_of (local_upsert (hone hkeys))
    | lset | linsert | lrem | ltrim | hdel | srem | spop | zrem | zpopmin | zpopmax
    | zremrangebyrank | zremrangebyscore => exact local_of (local_update (hone hkeys))
    | debugObject key =>
      exact .query fun s t h => by simp only [run, debugObject_congr (h key (hone hkeys))]
    | type key =>
      exact .query fun s t h => by simp only [run, typeOf_congr (h key (hone hkeys))]
    | ttl key =>
      exact .query fun s t h => by simp only [run, pttl_congr (h key (hone hkeys))]
    | pttl key =>
      exact .query fun s t h => by simp only [run, pttl_congr (h key (hone hkeys))]
    | existsKeys l =>
      obtain rfl : l = ks := Option.some.inj hkeys
      refine .query fun s t h => ?_
      have hcount : (l.countP fun k => s.exists_ env.now k) = l.countP fun k => t.exists_ env.now k :=
        List.countP_congr fun k hk => by rw [exists_congr (h k hk)]
      simp only [run, hcount]
    | hmget key fields =>
      refine .query fun s t h => ?_
      have hget : ∀ field, s.hget key field = t.hget key field :=
        fun field => read_congr (h key (hone hkeys))
      simp only [run, hget]
    | combine op l =>
      obtain rfl : l = ks := Option.some.inj hkeys
      exact local_query fun s t h => combine_congr h
    | combineStore op dst l =>
      obtain rfl : dst :: l = ks := Option.some.inj hkeys
      exact local_of (local_combineStore (by simp) fun k hk => by simp [hk])
    | lmove src dst fromLeft toLeft =>
      obtain rfl : [src, dst] = ks := Option.some.inj hkeys
      exact local_of (local_move (by simp) (by simp))
    | smove src dst member =>
      obtain rfl : [src, dst] = ks := Option.some.inj hkeys
      exact local_of ((local_move (by simp) (by simp)).map (Except.map Option.isSome))
    | push left key values =>
      cases left <;> exact local_of (local_upsert (hone hkeys))
    | pop left key count withCount =>
      cases left <;> exact local_of (local_update (hone hkeys))
    | hset key pairs => exact local_of (local_hsetLoop (hone hkeys) pairs)
    | zadd key flags steps => exact local_of (local_zaddLoop (hone hkeys) steps)
    | del l =>
      obtain rfl : l = ks := Option.some.inj hkeys
      exact (local_del fun _ h => h).map fun n : ℕ => Frame.integer n
    | expire key dur => exact (local_expire (hone hkeys)).map Frame.flag
    | persist key => exact (local_persist (hone hkeys)).map Frame.flag
    | get key =>
      exact (local_get (hone hkeys)).map getReply
    | strlen key =>
      exact (local_get (hone hkeys)).map strlenReply
    | mget l =>
      obtain rfl : l.filterMap id = ks := Option.some.inj hkeys
      exact (local_mgetLoop fun _ h => h).map fun items => Frame.array (some items)
    | mset pairs =>
      obtain rfl : pairs.map Prod.fst = ks := Option.some.inj hkeys
      exact (local_msetLoop fun p hp => List.mem_map_of_mem hp).map fun _ => Frame.ok
    | getset key val =>
      exact ((local_get (hone hkeys)).bind fun v =>
        local_set (hone hkeys) (Frame.bulk (getsetOld v))).congr fun _ => rfl
    | set key val dur nx xx =>
      have hfound : Local look (fun s : Store => (s.exists_ env.now key, s)) {k | k ∈ ks} :=
        .query fun s t h => exists_congr (h key (hone hkeys))
      refine (hfound.bind (g := fun found s =>
        if nx && found then (Frame.nullBulk, s) else if xx && !found then (Frame.nullBulk, s)
        else (Frame.ok, s.set env.now key (.string val) dur)) fun found => ?_).congr fun s => ?_
      · split
        · exact .query fun _ _ _ => rfl
        · split
          · exact .query fun _ _ _ => rfl
          · exact local_set (hone hkeys) _
      · simp only [run]
        split
        · rfl
        · split <;> rfl
    | setnx key val =>
      have hfound : Local look (fun s : Store => (s.exists_ env.now key, s)) {k | k ∈ ks} :=
        .query fun s t h => exists_congr (h key (hone hkeys))
      refine (hfound.bind (g := fun found s =>
        if found then (Frame.integer 0, s)
        else (Frame.integer 1, s.set env.now key (.string val) none)) fun found => ?_).congr fun s => ?_
      · split
        · exact .query fun _ _ _ => rfl
        · exact local_set (hone hkeys) _
      · simp only [run]
        split <;> rfl

/-! ## Arguments -/

/-- Where a command has its keys. -/
inductive KeyPlace where
  | nowhere
  | first
  | firstTwo
  | every
  | pairs
  | object
  | whole
  deriving DecidableEq

/-- The arguments that are keys, or nothing if the command is about the whole store. -/
def KeyPlace.keyArgs (args : List Frame) : KeyPlace → Option (List Bytes)
  | nowhere => some []
  | first => some (bulkBytes args 1).toList
  | firstTwo => some ((bulkBytes args 1).toList ++ (bulkBytes args 2).toList)
  | every => some (bulksFrom args 1)
  | pairs => some ((bulkPairs (args.drop 1)).map Prod.fst)
  | object =>
    some (if (bulkAsStr args 1).map Text.toUppercase = some "OBJECT" then (bulkBytes args 2).toList
      else [])
  | whole => none

/-- The commands of `commandTable`, with the places of their keys. -/
def keyPlaces : List (String × KeyPlace) :=
  [("PING", .nowhere), ("ECHO", .nowhere),
    ("QUIT", .nowhere), ("SELECT", .nowhere),
    ("CLIENT", .nowhere), ("COMMAND", .nowhere),
    ("CONFIG", .nowhere),
    ("INFO", .whole), ("DEBUG", .object),
    ("DEL", .every), ("EXISTS", .every), ("TYPE", .first), ("EXPIRE", .first),
    ("PEXPIRE", .first), ("TTL", .first), ("PTTL", .first), ("PERSIST", .first),
    ("KEYS", .whole), ("DBSIZE", .whole),
    ("FLUSHDB", .whole), ("FLUSHALL", .whole),
    ("GET", .first), ("SET", .first), ("MGET", .every), ("MSET", .pairs),
    ("STRLEN", .first), ("APPEND", .first), ("INCR", .first),
    ("DECR", .first),
    ("INCRBY", .first), ("DECRBY", .first), ("GETSET", .first),
    ("SETNX", .first),
    ("LPUSH", .first), ("RPUSH", .first), ("LPOP", .first), ("RPOP", .first),
    ("LLEN", .first), ("LRANGE", .first), ("LINDEX", .first), ("LSET", .first),
    ("LINSERT", .first), ("LREM", .first), ("LTRIM", .first), ("LMOVE", .firstTwo),
    ("HSET", .first), ("HMSET", .first), ("HGET", .first), ("HMGET", .first),
    ("HGETALL", .first), ("HDEL", .first), ("HLEN", .first), ("HEXISTS", .first),
    ("HKEYS", .first), ("HVALS", .first), ("HSETNX", .first), ("HINCRBY", .first),
    ("HINCRBYFLOAT", .first),
    ("SADD", .first), ("SMEMBERS", .first), ("SISMEMBER", .first), ("SREM", .first),
    ("SCARD", .first), ("SMOVE", .firstTwo), ("SRANDMEMBER", .first), ("SPOP", .first),
    ("SUNION", .every), ("SINTER", .every), ("SDIFF", .every),
    ("SUNIONSTORE", .every), ("SINTERSTORE", .every),
    ("SDIFFSTORE", .every),
    ("ZADD", .first), ("ZSCORE", .first), ("ZRANK", .first), ("ZREVRANK", .first),
    ("ZCARD", .first), ("ZCOUNT", .first), ("ZINCRBY", .first), ("ZREM", .first),
    ("ZRANGE", .first), ("ZREVRANGE", .first), ("ZRANGEBYSCORE", .first),
    ("ZREVRANGEBYSCORE", .first), ("ZPOPMIN", .first), ("ZPOPMAX", .first),
    ("ZREMRANGEBYRANK", .first), ("ZREMRANGEBYSCORE", .first)]

/-- The places of the keys of a command. -/
def keyPlace (name : String) : KeyPlace := (keyPlaces.lookup name).getD .nowhere

/-- The arguments of the command `name` that are keys. -/
def keyArgs (name : String) (args : List Frame) : Option (List Bytes) := (keyPlace name).keyArgs args

section Readings

open Reading

variable {args : List Frame} {i : ℕ} {cmd : String}

/-- The request has its keys from `place`. -/
def Request.KeysFrom (args : List Frame) (place : KeyPlace) (r : Request) : Prop :=
  r.keyList = (place.keyArgs args).map (List.map Utf8.lossy)

theorem all_need {P : Request → Prop} {α : Type} {o : Option α} {f : Frame} {k : α → Reading}
    (h : ∀ a, o = some a → All P (k a)) : All P (need o f >>= k) := by
  cases o with
  | none => trivial
  | some a => exact h a rfl

/-- Reading a key. -/
theorem all_key {P : Request → Prop} {k : String → Reading}
    (h : ∀ b, bulkBytes args i = some b → All P (k (Utf8.lossy b))) :
    All P (strArg args i cmd >>= k) := by
  refine all_need fun key hkey => ?_
  obtain ⟨b, hb, rfl⟩ := Option.map_eq_some_iff.mp hkey
  exact h b hb

/-- A command that reads its key first, after a check of the number of arguments. -/
theorem all_first {ok : Bool} {cmd' : String} {k : String → Reading}
    (h : ∀ key, All (fun r => r.keyList = some [key]) (k key)) :
    All (Request.KeysFrom args .first) (require ok cmd >>= fun _ => strArg args 1 cmd' >>= k) := by
  refine all_bind fun _ => all_key fun b hb => ?_
  have hkeys : Request.KeysFrom args .first = fun r => r.keyList = some [Utf8.lossy b] := by
    ext r : 1
    simp [Request.KeysFrom, KeyPlace.keyArgs, hb]
  rw [hkeys]
  exact h (Utf8.lossy b)

/-- A command that reads two keys first. -/
theorem all_firstTwo {ok : Bool} {k : String → String → Reading}
    (h : ∀ src dst, All (fun r => r.keyList = some [src, dst]) (k src dst)) :
    All (Request.KeysFrom args .firstTwo)
      (require ok cmd >>= fun _ => strArg args 1 cmd >>= fun src => strArg args 2 cmd >>= k src) := by
  refine all_bind fun _ => all_key fun b hb => all_key fun b' hb' => ?_
  have hkeys : Request.KeysFrom args .firstTwo =
      fun r => r.keyList = some [Utf8.lossy b, Utf8.lossy b'] := by
    ext r : 1
    simp [Request.KeysFrom, KeyPlace.keyArgs, hb, hb']
  rw [hkeys]
  exact h (Utf8.lossy b) (Utf8.lossy b')

theorem bulksFrom_one {b : Bytes} (h : bulkBytes args 1 = some b) :
    bulksFrom args 1 = b :: bulksFrom args 2 := by
  obtain ⟨f, hf, hb⟩ := Option.bind_eq_some_iff.mp h
  obtain ⟨hlt, rfl⟩ := List.getElem?_eq_some_iff.mp hf
  rw [bulksFrom, bulksFrom, List.drop_eq_getElem_cons hlt, List.filterMap_cons_some hb]

/-- `SUNIONSTORE`, `SINTERSTORE` and `SDIFFSTORE` read their destination first. -/
theorem all_combineStore {op : SetOp} :
    All (Request.KeysFrom args .every) (combineStoreCommand cmd op args) := by
  refine all_bind fun _ => all_key fun b hb => ?_
  change Request.keyList _ = _
  simp [Request.keyList, KeyPlace.keyArgs, multiKeySetArgs, bulksFrom_one hb]

/-- The keys of `MGET` are all its arguments. -/
theorem all_mget : All (Request.KeysFrom args .every) (cmdMget args) := by
  refine all_bind fun _ => ?_
  change some (((args.drop 1).map fun f => f.payload.map Utf8.lossy).filterMap id) =
    some (((args.drop 1).filterMap Frame.payload).map Utf8.lossy)
  rw [List.filterMap_map, List.map_filterMap]
  rfl

/-- The keys of `MSET` are every second argument. -/
theorem all_mset : All (Request.KeysFrom args .pairs) (cmdMset args) := by
  refine all_bind fun _ => ?_
  change some _ = some _
  simp only [List.map_map]
  rfl

/-- The key of `DEBUG OBJECT` is its second argument. -/
theorem all_object (ctx : CommandContext) :
    All (Request.KeysFrom args .object) (cmdDebug ctx args) := by
  refine all_need fun sub hsub => ?_
  have hother : sub ≠ "OBJECT" → ∀ f, Request.KeysFrom args .object (.answer f) := by
    intro hne f
    simp [Request.KeysFrom, KeyPlace.keyArgs, Request.keyList, hsub, hne]
  split
  · exact hother (by decide) _
  · refine all_need fun key hkey => ?_
    obtain ⟨b, hb, rfl⟩ := Option.map_eq_some_iff.mp hkey
    change some [Utf8.lossy b] = _
    simp [KeyPlace.keyArgs, hsub, hb]
  · exact hother (by decide) _
  · exact hother (by decide) _
  · exact hother (by decide) _
  · exact hother (by decide) _
  · exact hother (by decide) _
  · trivial

/-- Every command has its keys where `keyPlaces` says. -/
theorem keysFrom_commandTable (ctx : CommandContext) (args : List Frame) :
    List.Forall₂ (fun p q => p.1 = q.1 ∧ All (Request.KeysFrom args q.2) (p.2 args))
      (commandTable ctx) keyPlaces := by
  -- The handlers read a number of arguments after the key, and make their request.
  have two {ok : Bool} {cmd cmd' : String} {α : Type} {x : String → Except Frame α}
      {k : String → α → Reading} (h : ∀ key a, All (fun r => r.keyList = some [key]) (k key a)) :
      All (Request.KeysFrom args .first)
        (require ok cmd >>= fun _ => strArg args 1 cmd' >>= fun key => x key >>= k key) :=
    all_first fun key => all_bind (h key)
  simp only [commandTable, keyPlaces, List.forall₂_cons, true_and]
  exact ⟨rfl, all_bind fun _ => all_bind fun _ => rfl, rfl, rfl, rfl, rfl, rfl, rfl, all_object ctx,
    all_bind fun _ => rfl, all_bind fun _ => rfl, all_first fun _ => rfl, two fun _ _ => rfl,
    two fun _ _ => rfl, all_first fun _ => rfl, all_first fun _ => rfl, all_first fun _ => rfl, rfl,
    rfl, rfl, rfl, all_first fun _ => rfl, two fun _ _ => rfl, all_mget, all_mset,
    all_first fun _ => rfl, two fun _ _ => rfl, all_first fun _ => rfl, all_first fun _ => rfl,
    two fun _ _ => rfl, two fun _ _ => rfl, two fun _ _ => rfl, two fun _ _ => rfl,
    all_first fun _ => rfl, all_first fun _ => rfl, all_first fun _ => rfl, all_first fun _ => rfl,
    all_first fun _ => rfl, two fun _ _ => all_bind fun _ => rfl, two fun _ _ => rfl,
    two fun _ _ => all_bind fun _ => rfl,
    two fun _ _ => all_bind fun _ => all_bind fun _ => all_bind fun _ => rfl,
    two fun _ _ => all_bind fun _ => rfl, two fun _ _ => all_bind fun _ => rfl,
    all_firstTwo fun _ _ =>
      all_bind fun _ => all_bind fun _ => all_bind fun _ => all_bind fun _ => rfl,
    all_first fun _ => rfl, all_first fun _ => rfl, two fun _ _ => rfl, all_first fun _ => rfl,
    all_first fun _ => rfl, all_first fun _ => rfl, all_first fun _ => rfl, two fun _ _ => rfl,
    all_first fun _ => rfl, all_first fun _ => rfl, two fun _ _ => all_bind fun _ => rfl,
    two fun _ _ => all_bind fun _ => rfl, two fun _ _ => all_bind fun _ => rfl,
    all_first fun _ => rfl, all_first fun _ => rfl, two fun _ _ => rfl, all_first fun _ => rfl,
    all_first fun _ => rfl, all_firstTwo fun _ _ => all_bind fun _ => rfl, all_first fun _ => rfl,
    all_first fun _ => rfl, all_bind fun _ => rfl, all_bind fun _ => rfl, all_bind fun _ => rfl,
    all_combineStore, all_combineStore, all_combineStore, two fun _ _ => rfl, two fun _ _ => rfl,
    two fun _ _ => rfl, two fun _ _ => rfl, all_first fun _ => rfl,
    two fun _ _ => all_bind fun _ => rfl, two fun _ _ => all_bind fun _ => rfl,
    all_first fun _ => rfl, two fun _ _ => all_bind fun _ => rfl,
    two fun _ _ => all_bind fun _ => rfl, two fun _ _ => all_bind fun _ => rfl,
    two fun _ _ => all_bind fun _ => rfl, all_first fun _ => rfl, all_first fun _ => rfl,
    two fun _ _ => all_bind fun _ => rfl, two fun _ _ => all_bind fun _ => rfl, .nil⟩

/-- Two tables with the same names have the same lookups. -/
theorem lookup_of_forall₂ {α β : Type} {R : α → β → Prop} {l : List (String × α)}
    {m : List (String × β)} (h : List.Forall₂ (fun p q => p.1 = q.1 ∧ R p.2 q.2) l m) {name : String}
    {a : α} (ha : l.lookup name = some a) : ∃ b, m.lookup name = some b ∧ R a b := by
  induction h with
  | nil => cases ha
  | @cons p q l m hpq _ ih =>
    rw [List.lookup_cons] at ha ⊢
    rw [← hpq.1]
    cases hname : name == p.1 with
    | true =>
      rw [hname] at ha
      exact ⟨q.2, rfl, Option.some.inj ha ▸ hpq.2⟩
    | false =>
      rw [hname] at ha
      exact ih ha

/-- The keys of the request that a command makes. -/
theorem keyList_of_readCommand {ctx : CommandContext} {name : String} {r : Request}
    (h : readCommand ctx name args = .ok r) :
    r.keyList = (keyArgs name args).map (List.map Utf8.lossy) := by
  unfold readCommand at h
  split at h
  · next handler hlookup =>
    obtain ⟨place, hplace, hall⟩ := lookup_of_forall₂
      (R := fun handler place => All (Request.KeysFrom args place) (handler args))
      (keysFrom_commandTable ctx args) hlookup
    rw [h] at hall
    rw [keyArgs, keyPlace, hplace]
    exact hall
  · cases h

end Readings

end LoonyRedis
