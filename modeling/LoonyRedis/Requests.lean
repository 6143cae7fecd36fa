import LoonyRedis.Slots
import LoonyRedis.Store

/-!
# What the commands ask of the store

A handler `cmd_x` of the program checks and reads the arguments of a request, calls a
method of the store and formats the result. Here it is cut in two : `cmdX` reads the
arguments and returns a `Request`, or the error frame with which the handler returns
early, and `Request.run` makes the call and formats the reply. Reading the arguments does
not look at the store.

The outcome of a request is its reply, the store afterwards and the records that the
handler appends to the append-only file, if there is one.
-/

namespace LoonyRedis

/-! ## The server around the store -/

/-- What `INFO` tells of the server and its statistics. -/
structure Metrics where
  port : ℕ
  uptimeSecs : ℕ
  totalCommands : ℕ
  totalConnections : ℕ
  activeConnections : ℕ

/-- What a node thinks of a peer. -/
inductive NodeState where
  | alive
  | suspected
  | failed
  deriving DecidableEq

/-- The name of a state, in gossip and in `DEBUG HEALTH`. -/
def NodeState.asStr : NodeState → String
  | .alive => "alive"
  | .suspected => "suspected"
  | .failed => "failed"

/-- What a Raft node tells a client : whether it leads, and whom it takes for the leader. -/
structure RaftHandle where
  isLeader : Bool
  currentLeader : Option String

/-- The context of a command. The rows of the health table are in the order in which it
lists them. -/
structure CommandContext where
  isLeader : Bool
  leaderAddr : Option String
  commitCount : ℕ
  raft : Option RaftHandle
  cluster : Option ClusterConfig
  health : Option (List (String × NodeState))
  metrics : Option Metrics
  isReplicaReplay : Bool

/-- A record of the append-only file, the parts of a command. -/
abbrev Record := List Bytes

/-- What comes of a request. -/
structure Outcome where
  reply : Frame
  store : Store
  log : List Record

namespace Outcome

variable {β : Type}

/-- The outcome of a method call : its result formatted, or its error. -/
def of (r : Except String β × Store) (fmt : β → Frame) (log : β → List Record) : Outcome :=
  match r.1 with
  | .ok b => ⟨fmt b, r.2, log b⟩
  | .error e => ⟨.error e, r.2, []⟩

/-- A method call that is not logged. -/
def change (r : Except String β × Store) (fmt : β → Frame) : Outcome := of r fmt fun _ => []

/-- A method call that only reads. -/
def query (s : Store) (r : Except String β) (fmt : β → Frame) : Outcome := change (r, s) fmt

end Outcome

/-! ## Requests -/

/-- Of one step of `ZADD` : a score and a member, a score that is not a number, or
arguments to skip. -/
inductive ZaddStep where
  | add (score : F64) (member : Bytes)
  | bad
  | skip

/-- The options of `ZADD`. -/
structure ZaddFlags where
  nx : Bool := false
  xx : Bool := false
  gt : Bool := false
  lt : Bool := false
  ch : Bool := false

/-- The three ways to combine sets. -/
inductive SetOp where
  | union
  | inter
  | diff

/-- What a handler asks of the store, once its arguments are read. -/
inductive Request where
  | answer (f : Frame)
  | info (sect : String)
  | debugObject (key : String)
  | del (keys : List String)
  | existsKeys (keys : List String)
  | type (key : String)
  | expire (key : String) (ttl : ℕ)
  | ttl (key : String)
  | pttl (key : String)
  | persist (key : String)
  | keys
  | dbsize
  | flush
  | get (key : String)
  | set (key : String) (val : Bytes) (ttl : Option ℕ) (nx xx : Bool)
  | mget (keys : List (Option String))
  | mset (pairs : List (String × Bytes))
  | strlen (key : String)
  | append (key : String) (suffix : Bytes)
  | incrby (key : String) (delta : Text.I64) (record : Record)
  | getset (key : String) (val : Bytes)
  | setnx (key : String) (val : Bytes)
  | push (left : Bool) (key : String) (values : List Bytes)
  | pop (left : Bool) (key : String) (count : ℕ) (withCount : Bool)
  | llen (key : String)
  | lrange (key : String) (start stop : ℤ)
  | lindex (key : String) (index : ℤ)
  | lset (key : String) (index : ℤ) (val : Bytes)
  | linsert (key : String) (before : Bool) (pivot val : Bytes)
  | lrem (key : String) (count : Text.I64) (val : Bytes)
  | ltrim (key : String) (start stop : ℤ)
  | lmove (src dst : String) (fromLeft toLeft : Bool)
  | hset (key : String) (pairs : List (Bytes × Bytes))
  | hget (key : String) (field : Bytes)
  | hmget (key : String) (fields : List (Option Bytes))
  | hgetall (key : String)
  | hdel (key : String) (fields : List Bytes)
  | hlen (key : String)
  | hexists (key : String) (field : Bytes)
  | hkeys (key : String)
  | hvals (key : String)
  | hsetnx (key : String) (field val : Bytes)
  | hincrby (key : String) (field : Bytes) (delta : Text.I64)
  | hincrbyfloat (key : String) (field : Bytes) (delta : F64)
  | sadd (key : String) (members : List Bytes)
  | smembers (key : String)
  | sismember (key : String) (member : Bytes)
  | srem (key : String) (members : List Bytes)
  | scard (key : String)
  | smove (src dst : String) (member : Bytes)
  | srandmember (key : String) (count : Option Text.I64)
  | spop (key : String) (count : Option ℕ)
  | combine (op : SetOp) (keys : List String)
  | combineStore (op : SetOp) (dst : String) (keys : List String)
  | zadd (key : String) (flags : ZaddFlags) (steps : List ZaddStep)
  | zscore (key : String) (member : Bytes)
  | zrank (key : String) (member : Bytes)
  | zrevrank (key : String) (member : Bytes)
  | zcard (key : String)
  | zcount (key : String) (lo hi : ScoreBound)
  | zincrby (key : String) (delta : F64) (member : Bytes)
  | zrem (key : String) (members : List Bytes)
  | zrange (key : String) (start stop : ℤ) (rev withscores : Bool)
  | zrangebyscore (key : String) (lo hi : ScoreBound) (offset : ℕ) (limit : Option ℕ)
      (rev withscores : Bool)
  | zpopmin (key : String) (count : ℕ)
  | zpopmax (key : String) (count : ℕ)
  | zremrangebyrank (key : String) (start stop : ℤ)
  | zremrangebyscore (key : String) (lo hi : ScoreBound)

/-! ## Formatting -/

/-- A bulk string, or null. -/
def bulkOrNull (b : Option Bytes) : Frame := .bulk b

/-- A score, in decimal. -/
def scoreFrame (x : F64) : Frame := .bulkStr x.display

/-- Fields and values in turn, in one flat array. -/
def pairsFrame (pairs : List (Bytes × Bytes)) : Frame :=
  .array (some (pairs.flatMap fun p => [.bulk (some p.1), .bulk (some p.2)]))

/-- Members in one flat array, each followed by its score with `WITHSCORES`. -/
def zsetPairsToFrame (pairs : List (Bytes × F64)) (withscores : Bool) : Frame :=
  .array (some (pairs.flatMap fun p =>
    if withscores then [.bulk (some p.1), scoreFrame p.2] else [.bulk (some p.1)]))

/-- All elements, or only one if no count was given. -/
def poppedFrame (withCount : Bool) (one : List Bytes → Option Bytes) (v : List Bytes) : Frame :=
  if withCount then .bulks v else bulkOrNull (one v)

/-! ## INFO -/

/-- The host and the port of `addr`. -/
def splitHostPort (addr : String) : String × String :=
  match addr.splitOn ":" with
  | host :: port :: _ => (host, port)
  | [host] => (host, "0")
  | [] => ("", "0")

/-- The section on the server, with the port and the uptime if there are metrics. -/
def infoServer (ctx : CommandContext) : String :=
  "# Server\r\n" ++ "redis_version:7.0.0-loony\r\n" ++
    (match ctx.metrics with
      | some m =>
        let port := m.port
        let secs := m.uptimeSecs
        let days := m.uptimeSecs / 86400
        s!"tcp_port:{port}\r\n" ++ s!"uptime_in_seconds:{secs}\r\n" ++ s!"uptime_in_days:{days}\r\n"
      | none => "") ++
    "os:Linux\r\n" ++ "arch_bits:64\r\n" ++ "executable:loony-redis\r\n" ++ "\r\n"

/-- The section on the statistics. -/
def infoStats (ctx : CommandContext) : String :=
  "# Stats\r\n" ++
    (match ctx.metrics with
      | some m =>
        let commands := m.totalCommands
        let conns := m.totalConnections
        let active := m.activeConnections
        s!"total_commands_processed:{commands}\r\n" ++
          s!"total_connections_received:{conns}\r\n" ++ s!"connected_clients:{active}\r\n"
      | none => "") ++ "\r\n"

/-- The section on the replication : the role, the leader and the offset. -/
def infoReplication (ctx : CommandContext) : String :=
  let offset := ctx.commitCount
  "# Replication\r\n" ++ (if ctx.isLeader then "role:master\r\n" else "role:replica\r\n") ++
    (match ctx.leaderAddr with
      | some addr =>
        let (host, port) := splitHostPort addr
        s!"master_host:{host}\r\n" ++ s!"master_port:{port}\r\n"
      | none => "") ++
    s!"master_repl_offset:{offset}\r\n" ++ "\r\n"

/-- The section on the cluster. -/
def infoCluster (ctx : CommandContext) : String :=
  "# Cluster\r\n" ++
    (match ctx.cluster with
      | some cfg =>
        let id := nodeId cfg.myAddr
        let known := cfg.nodes.length
        let owned := ((cfg.slotRangesFor cfg.myIndex).map fun r => r.2 - r.1 + 1).sum
        "cluster_enabled:1\r\n" ++ s!"cluster_my_id:{id}\r\n" ++
          s!"cluster_known_nodes:{known}\r\n" ++ s!"cluster_slots_owned:{owned}\r\n"
      | none => "cluster_enabled:0\r\n") ++ "\r\n"

/-- The section on the keys, which counts the live ones. -/
def infoKeyspace (now : ℕ) (s : Store) : String :=
  let (total, expires) := s.keyspaceInfo now
  "# Keyspace\r\n" ++
    (if 0 < total then s!"db0:keys={total},expires={expires},avg_ttl=0\r\n" else "") ++ "\r\n"

/-- The section `sect`, or all of them. -/
def infoText (ctx : CommandContext) (now : ℕ) (sect : String) (s : Store) : String :=
  let want := fun name => sect = "ALL" || sect = "DEFAULT" || sect = name
  (if want "SERVER" then infoServer ctx else "") ++
    (if want "STATS" then infoStats ctx else "") ++
    (if want "REPLICATION" then infoReplication ctx else "") ++
    (if want "CLUSTER" then infoCluster ctx else "") ++
    (if want "KEYSPACE" then infoKeyspace now s else "")

/-! ## Running a request -/

/-- The loop of `cmd_mget`. -/
def mgetLoop (now : ℕ) : List (Option String) → Store → List Frame × Store
  | [], s => ([], s)
  | none :: ks, s => ((mgetLoop now ks s).1.cons .nullBulk, (mgetLoop now ks s).2)
  | some k :: ks, s =>
    let item := match (s.get now k).1 with
      | some (.string b) => .bulk (some b)
      | _ => .nullBulk
    ((mgetLoop now ks (s.get now k).2).1.cons item, (mgetLoop now ks (s.get now k).2).2)

/-- The loop of `cmd_mset`. -/
def msetLoop (now : ℕ) (pairs : List (String × Bytes)) (s : Store) : Store :=
  pairs.foldl (fun s p => s.set now p.1 (.string p.2) none) s

/-- The loop of `cmd_hset` : the number of new fields, up to the first error. -/
def hsetLoop (key : String) : List (Bytes × Bytes) → Op ℕ
  | [], s => (.ok 0, s)
  | (f, v) :: pairs, s =>
    match s.hset key f v with
    | (.error e, s) => (.error e, s)
    | (.ok n, s) => ((hsetLoop key pairs s).1.map (n + ·), (hsetLoop key pairs s).2)

/-- The loop of `cmd_zadd` : the numbers of added and of changed members, up to the first
error. What was added before it stays. -/
def zaddLoop (key : String) (flags : ZaddFlags) : List ZaddStep → Op (ℕ × ℕ)
  | [], s => (.ok (0, 0), s)
  | .skip :: steps, s => zaddLoop key flags steps s
  | .bad :: _, s => (.error "ERR value is not a valid float", s)
  | .add score member :: steps, s =>
    match s.zadd key score member flags.nx flags.xx flags.gt flags.lt with
    | (.error e, s) => (.error e, s)
    | (.ok (a, c), s) =>
      ((zaddLoop key flags steps s).1.map fun r => (a + r.1, c + r.2),
        (zaddLoop key flags steps s).2)

/-- The operation on sets. -/
def SetOp.fn : SetOp → RedisSet → List RedisSet → Std.ExtTreeSet Bytes compare
  | union => RedisSet.unionWith
  | inter => RedisSet.intersectWith
  | diff => RedisSet.diffWith

namespace Request

open Outcome

/-- The method call of a handler, and what it makes of the result. -/
def run (ctx : CommandContext) (env : Env) (s : Store) : Request → Outcome
  | answer f => ⟨f, s, []⟩
  | info sect => ⟨.bulkStr (infoText ctx env.now sect s), s, []⟩
  | debugObject key =>
    ⟨match s.debugObject env.now key with
      | some text => .bulkStr text
      | none => .error "ERR no such key", s, []⟩
  | del ks =>
    let (deleted, s) := s.del ks
    ⟨.integer deleted, s,
      if 0 < deleted then [Utf8.toBytes "DEL" :: ks.map Utf8.toBytes] else []⟩
  | existsKeys ks => ⟨.integer (ks.countP fun k => s.exists_ env.now k), s, []⟩
  | type key => ⟨.simpleString (s.typeOf env.now key), s, []⟩
  | expire key dur =>
    let (found, s) := s.expire env.now key dur
    ⟨.flag found, s, []⟩
  | ttl key =>
    let ms := s.pttl env.now key
    ⟨.integer (if 0 < ms then ms / 1000 else ms), s, []⟩
  | pttl key => ⟨.integer (s.pttl env.now key), s, []⟩
  | persist key =>
    let (changed, s) := s.persist key
    ⟨.flag changed, s, []⟩
  | keys => ⟨.bulks ((s.allKeys env).map Utf8.toBytes), s, []⟩
  | dbsize => ⟨.integer s.keysCount, s, []⟩
  | flush => ⟨.ok, s.flush, []⟩
  | get key =>
    let (v, s) := s.get env.now key
    ⟨match v with
      | some (.string b) => .bulk (some b)
      | some _ => .error wrongType
      | none => .nullBulk, s, []⟩
  | set key val dur nx xx =>
    let found := s.exists_ env.now key
    if nx && found then ⟨.nullBulk, s, []⟩
    else if xx && !found then ⟨.nullBulk, s, []⟩
    else ⟨.ok, s.set env.now key (.string val) dur,
      [[Utf8.toBytes "SET", Utf8.toBytes key, val]]⟩
  | mget ks =>
    let (items, s) := mgetLoop env.now ks s
    ⟨.array (some items), s, []⟩
  | mset pairs =>
    ⟨.ok, msetLoop env.now pairs s,
      pairs.map fun p => [Utf8.toBytes "SET", Utf8.toBytes p.1, p.2]⟩
  | strlen key =>
    let (v, s) := s.get env.now key
    ⟨match v with
      | some (.string b) => .integer b.length
      | some _ => .error wrongType
      | none => .integer 0, s, []⟩
  | append key suffix =>
    of (s.append key suffix) (fun n => .integer n) fun _ =>
      [[Utf8.toBytes "APPEND", Utf8.toBytes key, suffix]]
  | incrby key delta record => of (s.incrby key delta) .integer fun _ => [record]
  | getset key val =>
    let (old, s) := s.getset env.now key val
    ⟨.bulk old, s, [[Utf8.toBytes "SET", Utf8.toBytes key, val]]⟩
  | setnx key val =>
    if s.exists_ env.now key then ⟨.integer 0, s, []⟩
    else ⟨.integer 1, s.set env.now key (.string val) none,
      [[Utf8.toBytes "SET", Utf8.toBytes key, val]]⟩
  | push left key values =>
    of (if left then s.lpush key values else s.rpush key values) (fun n => .integer n) fun _ =>
      [Utf8.toBytes (if left then "LPUSH" else "RPUSH") :: Utf8.toBytes key :: values]
  | pop left key count withCount =>
    change (if left then s.lpop key (max count 1) else s.rpop key (max count 1))
      (poppedFrame withCount List.getLast?)
  | llen key => query s (s.llen key) fun n => .integer n
  | lrange key start stop => query s (s.lrange key start stop) .bulks
  | lindex key index => query s (s.lindex key index) bulkOrNull
  | lset key index val =>
    change (s.lset key index val) fun b => if b then .ok else .error "ERR index out of range"
  | linsert key before pivot val => change (s.linsert key before pivot val) .integer
  | lrem key count val => change (s.lrem key count val) fun n => .integer n
  | ltrim key start stop => change (s.ltrim key start stop) fun _ => .ok
  | lmove src dst fromLeft toLeft => change (s.lmove src dst fromLeft toLeft) bulkOrNull
  | hset key pairs =>
    of (hsetLoop key pairs s) (fun n => .integer n) fun _ =>
      pairs.map fun p => [Utf8.toBytes "HSET", Utf8.toBytes key, p.1, p.2]
  | hget key field => query s (s.hget key field) bulkOrNull
  | hmget key fields =>
    ⟨.array (some (fields.map fun f => match f with
      | none => .nullBulk
      | some field => match s.hget key field with
        | .ok (some v) => .bulk (some v)
        | _ => .nullBulk)), s, []⟩
  | hgetall key => query s (s.hgetall env key) pairsFrame
  | hdel key fields => change (s.hdel key fields) fun n => .integer n
  | hlen key => query s (s.hlen key) fun n => .integer n
  | hexists key field => query s (s.hexists key field) .flag
  | hkeys key => query s (s.hkeys env key) .bulks
  | hvals key => query s (s.hvals env key) .bulks
  | hsetnx key field val => change (s.hsetnx key field val) .flag
  | hincrby key field delta => change (s.hincrby key field delta) .integer
  | hincrbyfloat key field delta => change (s.hincrbyfloat key field delta) scoreFrame
  | sadd key members =>
    of (s.sadd key members) (fun n => .integer n) fun n =>
      if 0 < n then [Utf8.toBytes "SADD" :: Utf8.toBytes key :: members] else []
  | smembers key => query s (s.smembers env key) .bulks
  | sismember key member => query s (s.sismember key member) .flag
  | srem key members => change (s.srem key members) fun n => .integer n
  | scard key => query s (s.scard key) fun n => .integer n
  | smove src dst member => change (s.smove src dst member) .flag
  | srandmember key count =>
    query s (s.srandmember env key ((count.map Subtype.val).getD 1))
      (poppedFrame count.isSome List.head?)
  | spop key count =>
    change (s.spop env key (count.getD 1)) (poppedFrame count.isSome List.head?)
  | combine op ks => query s (s.combine op.fn env ks) .bulks
  | combineStore op dst ks => change (s.combineStore op.fn env dst ks) fun n => .integer n
  | zadd key flags steps =>
    let result := fun r : ℕ × ℕ => if flags.ch then r.2 else r.1
    of (zaddLoop key flags steps s) (fun r => .integer (result r)) fun r =>
      if 0 < result r then [[Utf8.toBytes "ZADD", Utf8.toBytes key]] else []
  | zscore key member =>
    query s (s.zscore key member) fun x => bulkOrNull (x.map fun x => Utf8.toBytes x.display)
  | zrank key member =>
    query s (s.zrank key member) fun r => match r with
      | some r => .integer r
      | none => .nullBulk
  | zrevrank key member =>
    query s (s.zrevrank key member) fun r => match r with
      | some r => .integer r
      | none => .nullBulk
  | zcard key => query s (s.zcard key) fun n => .integer n
  | zcount key lo hi => query s (s.zcount key lo hi) fun n => .integer n
  | zincrby key delta member => change (s.zincrby key delta member) scoreFrame
  | zrem key members => change (s.zrem key members) fun n => .integer n
  | zrange key start stop rev ws =>
    query s (s.zrange key start stop rev) fun p => zsetPairsToFrame p ws
  | zrangebyscore key lo hi offset limit rev ws =>
    query s (s.zrangebyscore key lo hi offset limit rev) fun p => zsetPairsToFrame p ws
  | zpopmin key count => change (s.zpopmin key count) fun p => zsetPairsToFrame p true
  | zpopmax key count => change (s.zpopmax key count) fun p => zsetPairsToFrame p true
  | zremrangebyrank key start stop => change (s.zremrangebyrank key start stop) fun n => .integer n
  | zremrangebyscore key lo hi => change (s.zremrangebyscore key lo hi) fun n => .integer n

end Request

end LoonyRedis
