import LoonyRedis.Requests

/-!
# Commands

The handlers `cmdX` read the arguments of a request; each returns early with an error
frame where the source does. `commandTable` gives the handler of each command name, and
`execute` decides where a frame is served : on this node, by another node of the cluster
(a proxied command), through the Raft log, or not at all. The two commands that talk to
other nodes while they run, `CLUSTER` and `MIGRATE`, leave through `Route.remote`.
-/

namespace LoonyRedis

/-! ## Reading arguments -/

/-- The request that a handler makes, or the frame it returns early. -/
abbrev Reading := Except Frame Request

/-- Return early with the error for the number of arguments of `cmd`. -/
def require (ok : Bool) (cmd : String) : Except Frame Unit :=
  if ok then .ok () else .error (wrongNumArgs cmd)

/-- Return early with `f` if a part of the arguments could not be read. -/
def need {α : Type} (o : Option α) (f : Frame) : Except Frame α :=
  match o with
  | some a => .ok a
  | none => .error f

/-- The argument `i` as a key or another text. -/
def strArg (args : List Frame) (i : ℕ) (cmd : String) : Except Frame String :=
  need (bulkAsStr args i) (wrongNumArgs cmd)

/-- The argument `i` as bytes. -/
def bytesArg (args : List Frame) (i : ℕ) (cmd : String) : Except Frame Bytes :=
  need (bulkBytes args i) (wrongNumArgs cmd)

/-- The argument `i` as an integer of 64 bits. -/
def intArg (args : List Frame) (i : ℕ) (msg : String) : Except Frame Text.I64 :=
  need (bulkAsI64 args i) (.error msg)

/-- The argument `i` as a double. -/
def floatArg (args : List Frame) (i : ℕ) (msg : String) : Except Frame F64 :=
  need ((bulkAsStr args i).bind F64.parse) (.error msg)

/-- The argument `i` as an end of a range of scores. -/
def boundArg (args : List Frame) (i : ℕ) (msg : String) : Except Frame ScoreBound :=
  need ((bulkAsStr args i).bind ScoreBound.parse) (.error msg)

/-- The error of most commands for an argument that is no integer. -/
def notAnInteger : String := "ERR value is not an integer or out of range"

/-! ## Connection -/

/-- `PING [message]`. -/
def cmdPing (args : List Frame) : Reading :=
  .ok (.answer (match bulkBytes args 1 with
    | some msg => .bulk (some msg)
    | none => .pong))

/-- `ECHO message`; further arguments are passed over. -/
def cmdEcho (args : List Frame) : Reading := do
  require (2 ≤ args.length) "echo"
  let b ← bytesArg args 1 "echo"
  return .answer (.bulk (some b))

/-! ## Key space -/

/-- `DEL key [key ...]`. -/
def cmdDel (args : List Frame) : Reading := do
  require (2 ≤ args.length) "del"
  return .del (multiKeySetArgs args 1)

/-- `EXISTS key [key ...]`. -/
def cmdExists (args : List Frame) : Reading := do
  require (2 ≤ args.length) "exists"
  return .existsKeys (multiKeySetArgs args 1)

/-- A command with one argument, its key. -/
def keyCommand (cmd : String) (req : String → Request) (args : List Frame) : Reading := do
  require (args.length = 2) cmd
  let key ← strArg args 1 cmd
  return req key

/-- `TYPE key`. -/
def cmdType : List Frame → Reading := keyCommand "type" .type

/-- The error for a time to live that is negative or no integer. -/
def invalidExpire : String := "ERR invalid expire time"

/-- `EXPIRE` and `PEXPIRE`, which differ in the unit. -/
def expireCommand (cmd : String) (unit : ℕ) (args : List Frame) : Reading := do
  require (args.length = 3) cmd
  let key ← strArg args 1 cmd
  let n ← need ((bulkAsI64 args 2).filter (0 ≤ ·.1)) (.error invalidExpire)
  return .expire key (n.1.toNat * unit)

/-- `EXPIRE key seconds`. -/
def cmdExpire : List Frame → Reading := expireCommand "expire" Store.nanosPerSec

/-- `PEXPIRE key milliseconds`. -/
def cmdPexpire : List Frame → Reading := expireCommand "pexpire" Store.nanosPerMilli

/-- `TTL key`. -/
def cmdTtl : List Frame → Reading := keyCommand "ttl" .ttl

/-- `PTTL key`. -/
def cmdPttl : List Frame → Reading := keyCommand "pttl" .pttl

/-- `PERSIST key`. -/
def cmdPersist : List Frame → Reading := keyCommand "persist" .persist

/-! ## Strings -/

/-- `GET key`. -/
def cmdGet : List Frame → Reading := keyCommand "get" .get

/-- The options of `SET` that were read, and the unit if a time is to follow. -/
structure SetOptions where
  ttl : Option ℕ := none
  nx : Bool := false
  xx : Bool := false
  unit : Option ℕ := none

/-- Read one more argument of `SET` : the time after `EX` or `PX`, which counts if it is a
positive integer, or an option. What is no option is passed over. -/
def setOption (o : SetOptions) (f : Frame) : SetOptions :=
  match o.unit with
  | some unit =>
    { o with
      ttl := ((bulkAsI64 [f] 0).filter (0 < ·.1)).map fun n => n.1.toNat * unit
      unit := none }
  | none =>
    match bulkAsStr [f] 0 with
    | some "EX" => { o with ttl := none, unit := some Store.nanosPerSec }
    | some "PX" => { o with ttl := none, unit := some Store.nanosPerMilli }
    | some "NX" => { o with nx := true }
    | some "XX" => { o with xx := true }
    | _ => o

/-- `SET key value [EX seconds] [PX milliseconds] [NX] [XX]`, with the options in upper case. -/
def cmdSet (args : List Frame) : Reading := do
  require (3 ≤ args.length) "set"
  let key ← strArg args 1 "set"
  let val ← bytesArg args 2 "set"
  let opts := (args.drop 3).foldl setOption {}
  return .set key val opts.ttl opts.nx opts.xx

/-- `MGET key [key ...]`; an argument that is no bulk string is a missing key. -/
def cmdMget (args : List Frame) : Reading := do
  require (2 ≤ args.length) "mget"
  return .mget ((args.drop 1).map fun f => f.payload.map Utf8.lossy)

/-- The pairs of consecutive bulk strings; a pair with another frame is passed over. -/
def bulkPairs : List Frame → List (Bytes × Bytes)
  | f :: g :: rest =>
    match f.payload, g.payload with
    | some a, some b => (a, b) :: bulkPairs rest
    | _, _ => bulkPairs rest
  | _ => []

/-- `MSET key value [key value ...]`. -/
def cmdMset (args : List Frame) : Reading := do
  require (3 ≤ args.length && (args.length - 1) % 2 = 0) "mset"
  return .mset ((bulkPairs (args.drop 1)).map fun p => (Utf8.lossy p.1, p.2))

/-- `STRLEN key`. -/
def cmdStrlen : List Frame → Reading := keyCommand "strlen" .strlen

/-- `APPEND key value`. -/
def cmdAppend (args : List Frame) : Reading := do
  require (args.length = 3) "append"
  let key ← strArg args 1 "append"
  let suffix ← bytesArg args 2 "append"
  return .append key suffix

/-- `INCR key` and `DECR key`, by the sign of `delta`. -/
def cmdIncrby (delta : Text.I64) (args : List Frame) : Reading := do
  require (args.length = 2) (if 0 < delta.1 then "incr" else "decr")
  let key ← strArg args 1 "incr"
  return .incrby key delta [Utf8.toBytes (if 0 < delta.1 then "INCR" else "DECR"), Utf8.toBytes key]

/-- `INCRBY key n` and `DECRBY key n`, by the sign; the record has the magnitude of the
change. -/
def cmdIncrbyBy (sign : ℤ) (args : List Frame) : Reading := do
  require (args.length = 3) (if 0 < sign then "incrby" else "decrby")
  let key ← strArg args 1 "incrby"
  let n ← intArg args 2 notAnInteger
  let delta := Text.wrap (n * sign)
  -- The magnitude of the least integer wraps to itself.
  let magnitude := Text.wrap (if delta.1 < 0 then -delta.1 else delta.1)
  return .incrby key delta [Utf8.toBytes (if 0 < sign then "INCRBY" else "DECRBY"),
    Utf8.toBytes key, Utf8.toBytes (toString magnitude.1)]

/-- `GETSET key value`. -/
def cmdGetset (args : List Frame) : Reading := do
  require (args.length = 3) "getset"
  let key ← strArg args 1 "getset"
  let val ← bytesArg args 2 "getset"
  return .getset key val

/-- `SETNX key value`. -/
def cmdSetnx (args : List Frame) : Reading := do
  require (args.length = 3) "setnx"
  let key ← strArg args 1 "setnx"
  let val ← bytesArg args 2 "setnx"
  return .setnx key val

/-! ## Lists -/

/-- A command with a key and any number of bulk strings. -/
def manyCommand (cmd : String) (req : String → List Bytes → Request) (args : List Frame) :
    Reading := do
  require (3 ≤ args.length) cmd
  let key ← strArg args 1 cmd
  return req key (bulksFrom args 2)

/-- `LPUSH key value [value ...]`. -/
def cmdLpush : List Frame → Reading := manyCommand "lpush" (.push true)

/-- `RPUSH key value [value ...]`. -/
def cmdRpush : List Frame → Reading := manyCommand "rpush" (.push false)

/-- `LPOP` and `RPOP`. -/
def popCommand (cmd : String) (left : Bool) (args : List Frame) : Reading := do
  require (2 ≤ args.length) cmd
  let key ← strArg args 1 cmd
  return .pop left key (max (((bulkAsI64 args 2).map Subtype.val).getD 1) 0).toNat (3 ≤ args.length)

/-- `LPOP key [count]`. -/
def cmdLpop : List Frame → Reading := popCommand "lpop" true

/-- `RPOP key [count]`. -/
def cmdRpop : List Frame → Reading := popCommand "rpop" false

/-- `LLEN key`. -/
def cmdLlen : List Frame → Reading := keyCommand "llen" .llen

/-- `LRANGE key start stop`. -/
def cmdLrange (args : List Frame) : Reading := do
  require (args.length = 4) "lrange"
  let key ← strArg args 1 "lrange"
  let start ← intArg args 2 notAnInteger
  let stop ← intArg args 3 notAnInteger
  return .lrange key start stop

/-- `LINDEX key index`. -/
def cmdLindex (args : List Frame) : Reading := do
  require (args.length = 3) "lindex"
  let key ← strArg args 1 "lindex"
  let index ← intArg args 2 notAnInteger
  return .lindex key index

/-- `LSET key index value`. -/
def cmdLset (args : List Frame) : Reading := do
  require (args.length = 4) "lset"
  let key ← strArg args 1 "lset"
  let index ← intArg args 2 "ERR invalid index"
  let val ← bytesArg args 3 "lset"
  return .lset key index val

/-- A keyword in any case, one of two. -/
def keyword (yes no s : String) : Except Frame Bool :=
  if Text.toUppercase s = yes then .ok true
  else if Text.toUppercase s = no then .ok false
  else .error (.error "ERR syntax error")

/-- `LINSERT key BEFORE|AFTER pivot value`. All arguments are read before the keyword is
checked. -/
def cmdLinsert (args : List Frame) : Reading := do
  require (args.length = 5) "linsert"
  let key ← strArg args 1 "linsert"
  let pos ← strArg args 2 "linsert"
  let pivot ← bytesArg args 3 "linsert"
  let val ← bytesArg args 4 "linsert"
  let before ← keyword "BEFORE" "AFTER" pos
  return .linsert key before pivot val

/-- `LREM key count value`. -/
def cmdLrem (args : List Frame) : Reading := do
  require (args.length = 4) "lrem"
  let key ← strArg args 1 "lrem"
  let count ← intArg args 2 "ERR invalid count"
  let val ← bytesArg args 3 "lrem"
  return .lrem key count val

/-- A command with a key and two ends of a window. -/
def windowCommand (cmd : String) (req : String → ℤ → ℤ → Request) (arity : ℕ → Bool)
    (args : List Frame) : Reading := do
  require (arity args.length) cmd
  let key ← strArg args 1 cmd
  let start ← intArg args 2 "ERR invalid start"
  let stop ← intArg args 3 "ERR invalid stop"
  return req key start stop

/-- `LTRIM key start stop`. -/
def cmdLtrim : List Frame → Reading := windowCommand "ltrim" .ltrim (· = 4)

/-- `LMOVE source destination LEFT|RIGHT LEFT|RIGHT`. -/
def cmdLmove (args : List Frame) : Reading := do
  require (args.length = 5) "lmove"
  let src ← strArg args 1 "lmove"
  let dst ← strArg args 2 "lmove"
  let wherefrom ← strArg args 3 "lmove"
  let whereto ← strArg args 4 "lmove"
  let fromLeft ← keyword "LEFT" "RIGHT" wherefrom
  let toLeft ← keyword "LEFT" "RIGHT" whereto
  return .lmove src dst fromLeft toLeft

/-! ## Hashes -/

/-- `HSET key field value [field value ...]`, and `HMSET`. -/
def cmdHset (args : List Frame) : Reading := do
  require (4 ≤ args.length && (args.length - 2) % 2 = 0) "hset"
  let key ← strArg args 1 "hset"
  return .hset key (bulkPairs (args.drop 2))

/-- A command with a key and one more bulk string. -/
def fieldCommand (cmd : String) (req : String → Bytes → Request) (arity : ℕ → Bool)
    (args : List Frame) : Reading := do
  require (arity args.length) cmd
  let key ← strArg args 1 cmd
  let field ← bytesArg args 2 cmd
  return req key field

/-- `HGET key field`. -/
def cmdHget : List Frame → Reading := fieldCommand "hget" .hget (· = 3)

/-- `HMGET key field [field ...]`; an argument that is no bulk string is a missing field. -/
def cmdHmget (args : List Frame) : Reading := do
  require (3 ≤ args.length) "hmget"
  let key ← strArg args 1 "hmget"
  return .hmget key ((args.drop 2).map Frame.payload)

/-- `HGETALL key`. -/
def cmdHgetall : List Frame → Reading := keyCommand "hgetall" .hgetall

/-- `HDEL key field [field ...]`. -/
def cmdHdel : List Frame → Reading := manyCommand "hdel" .hdel

/-- `HLEN key`. -/
def cmdHlen : List Frame → Reading := keyCommand "hlen" .hlen

/-- `HEXISTS key field`. -/
def cmdHexists : List Frame → Reading := fieldCommand "hexists" .hexists (· = 3)

/-- `HKEYS key`. -/
def cmdHkeys : List Frame → Reading := keyCommand "hkeys" .hkeys

/-- `HVALS key`. -/
def cmdHvals : List Frame → Reading := keyCommand "hvals" .hvals

/-- `HSETNX key field value`. -/
def cmdHsetnx (args : List Frame) : Reading := do
  require (args.length = 4) "hsetnx"
  let key ← strArg args 1 "hsetnx"
  let field ← bytesArg args 2 "hsetnx"
  let val ← bytesArg args 3 "hsetnx"
  return .hsetnx key field val

/-- `HINCRBY key field n`. -/
def cmdHincrby (args : List Frame) : Reading := do
  require (args.length = 4) "hincrby"
  let key ← strArg args 1 "hincrby"
  let field ← bytesArg args 2 "hincrby"
  let delta ← intArg args 3 "ERR not an integer"
  return .hincrby key field delta

/-- `HINCRBYFLOAT key field x`. -/
def cmdHincrbyfloat (args : List Frame) : Reading := do
  require (args.length = 4) "hincrbyfloat"
  let key ← strArg args 1 "hincrbyfloat"
  let field ← bytesArg args 2 "hincrbyfloat"
  let delta ← floatArg args 3 "ERR not a float"
  return .hincrbyfloat key field delta

/-! ## Sets -/

/-- `SADD key member [member ...]`. -/
def cmdSadd : List Frame → Reading := manyCommand "sadd" .sadd

/-- `SMEMBERS key`. -/
def cmdSmembers : List Frame → Reading := keyCommand "smembers" .smembers

/-- `SISMEMBER key member`. -/
def cmdSismember : List Frame → Reading := fieldCommand "sismember" .sismember (· = 3)

/-- `SREM key member [member ...]`. -/
def cmdSrem : List Frame → Reading := manyCommand "srem" .srem

/-- `SCARD key`. -/
def cmdScard : List Frame → Reading := keyCommand "scard" .scard

/-- `SMOVE source destination member`. -/
def cmdSmove (args : List Frame) : Reading := do
  require (args.length = 4) "smove"
  let src ← strArg args 1 "smove"
  let dst ← strArg args 2 "smove"
  let member ← bytesArg args 3 "smove"
  return .smove src dst member

/-- `SRANDMEMBER key [count]`; a count that is no integer is none. -/
def cmdSrandmember (args : List Frame) : Reading := do
  require (2 ≤ args.length) "srandmember"
  let key ← strArg args 1 "srandmember"
  return .srandmember key (bulkAsI64 args 2)

/-- `SPOP key [count]`; a negative count is 0, and one that is no integer is none. -/
def cmdSpop (args : List Frame) : Reading := do
  require (2 ≤ args.length) "spop"
  let key ← strArg args 1 "spop"
  return .spop key ((bulkAsI64 args 2).map fun n => n.1.toNat)

/-- `SUNION`, `SINTER` and `SDIFF`. -/
def combineCommand (cmd : String) (op : SetOp) (args : List Frame) : Reading := do
  require (2 ≤ args.length) cmd
  return .combine op (multiKeySetArgs args 1)

/-- `SUNION key [key ...]`. -/
def cmdSunion : List Frame → Reading := combineCommand "sunion" .union

/-- `SINTER key [key ...]`. -/
def cmdSinter : List Frame → Reading := combineCommand "sinter" .inter

/-- `SDIFF key [key ...]`. -/
def cmdSdiff : List Frame → Reading := combineCommand "sdiff" .diff

/-- `SUNIONSTORE`, `SINTERSTORE` and `SDIFFSTORE`. -/
def combineStoreCommand (cmd : String) (op : SetOp) (args : List Frame) : Reading := do
  require (3 ≤ args.length) cmd
  let dst ← strArg args 1 cmd
  return .combineStore op dst (multiKeySetArgs args 2)

/-- `SUNIONSTORE destination key [key ...]`. -/
def cmdSunionstore : List Frame → Reading := combineStoreCommand "sunionstore" .union

/-- `SINTERSTORE destination key [key ...]`. -/
def cmdSinterstore : List Frame → Reading := combineStoreCommand "sinterstore" .inter

/-- `SDIFFSTORE destination key [key ...]`. -/
def cmdSdiffstore : List Frame → Reading := combineStoreCommand "sdiffstore" .diff

/-! ## Sorted sets -/

/-- The flags of `ZADD`, and what follows them. -/
def zaddFlags : List Frame → ZaddFlags → ZaddFlags × List Frame
  | [], flags => (flags, [])
  | f :: rest, flags =>
    match bulkAsStr [f] 0 with
    | some "NX" => zaddFlags rest { flags with nx := true }
    | some "XX" => zaddFlags rest { flags with xx := true }
    | some "GT" => zaddFlags rest { flags with gt := true }
    | some "LT" => zaddFlags rest { flags with lt := true }
    | some "CH" => zaddFlags rest { flags with ch := true }
    | _ => (flags, f :: rest)

/-- The score is read before the member, and a score that is no number ends the loop. -/
def zaddSteps : List Frame → List ZaddStep
  | f :: g :: rest =>
    (match bulkAsStr [f] 0 with
      | none => .skip
      | some text =>
        match F64.parse text, g.payload with
        | none, _ => .bad
        | some score, some member => .add score member
        | some _, none => .skip) :: zaddSteps rest
  | _ => []

/-- `ZADD key [NX] [XX] [GT] [LT] [CH] score member [score member ...]`, with the flags in upper
case. -/
def cmdZadd (args : List Frame) : Reading := do
  require (4 ≤ args.length) "zadd"
  let key ← strArg args 1 "zadd"
  let (flags, rest) := zaddFlags (args.drop 2) {}
  require (2 ≤ rest.length) "zadd"
  return .zadd key flags (zaddSteps rest)

/-- `ZSCORE key member`. -/
def cmdZscore : List Frame → Reading := fieldCommand "zscore" .zscore (· = 3)

/-- `ZRANK key member`; further arguments are passed over. -/
def cmdZrank : List Frame → Reading := fieldCommand "zrank" .zrank (3 ≤ ·)

/-- `ZREVRANK key member`; further arguments are passed over. -/
def cmdZrevrank : List Frame → Reading := fieldCommand "zrevrank" .zrevrank (3 ≤ ·)

/-- `ZCARD key`. -/
def cmdZcard : List Frame → Reading := keyCommand "zcard" .zcard

/-- The error for a lower bound that is no score. -/
def minNotFloat : String := "ERR min is not a float"

/-- The error for an upper bound that is no score. -/
def maxNotFloat : String := "ERR max is not a float"

/-- `ZCOUNT key min max`. -/
def cmdZcount (args : List Frame) : Reading := do
  require (args.length = 4) "zcount"
  let key ← strArg args 1 "zcount"
  let lo ← boundArg args 2 minNotFloat
  let hi ← boundArg args 3 maxNotFloat
  return .zcount key lo hi

/-- `ZINCRBY key x member`. -/
def cmdZincrby (args : List Frame) : Reading := do
  require (args.length = 4) "zincrby"
  let key ← strArg args 1 "zincrby"
  let delta ← floatArg args 2 "ERR not a float"
  let member ← bytesArg args 3 "zincrby"
  return .zincrby key delta member

/-- `ZREM key member [member ...]`. -/
def cmdZrem : List Frame → Reading := manyCommand "zrem" .zrem

/-- Whether `WITHSCORES`, in any case, is among the arguments from `start` on. -/
def hasWithscores (args : List Frame) (start : ℕ) : Bool :=
  (args.drop start).any fun f =>
    f.payload.any fun b => b.map Text.toAsciiUppercase = Utf8.toBytes "WITHSCORES"

/-- `ZRANGE key start stop [WITHSCORES]`. -/
def cmdZrange (args : List Frame) : Reading :=
  windowCommand "zrange" (fun k a b => .zrange k a b false (hasWithscores args 4)) (4 ≤ ·) args

/-- `ZREVRANGE key start stop [WITHSCORES]`. -/
def cmdZrevrange (args : List Frame) : Reading :=
  windowCommand "zrevrange" (fun k a b => .zrange k a b true (hasWithscores args 4)) (4 ≤ ·) args

/-- `usize::MAX` on a machine of 64 bits. -/
def usizeMax : ℕ := 2 ^ 64 - 1

/-- The offset and the count after the first `LIMIT` that has two arguments behind it. -/
def parseLimit (args : List Frame) (start : ℕ) : ℕ × Option ℕ :=
  match (List.range (args.length - 2)).find? fun i =>
      start ≤ i && (bulkAsStr args i).map Text.toUppercase = some "LIMIT" with
  | some i =>
    ((max (((bulkAsI64 args (i + 1)).map Subtype.val).getD 0) 0).toNat,
      (bulkAsI64 args (i + 2)).map fun n => if n.1 < 0 then usizeMax else n.1.toNat)
  | none => (0, none)

/-- `ZRANGEBYSCORE key min max [WITHSCORES] [LIMIT offset count]`. -/
def cmdZrangebyscore (args : List Frame) : Reading := do
  require (4 ≤ args.length) "zrangebyscore"
  let key ← strArg args 1 "zrangebyscore"
  let lo ← boundArg args 2 minNotFloat
  let hi ← boundArg args 3 maxNotFloat
  let (offset, limit) := parseLimit args 4
  return .zrangebyscore key lo hi offset limit false (hasWithscores args 4)

/-- The maximum comes before the minimum. -/
def cmdZrevrangebyscore (args : List Frame) : Reading := do
  require (4 ≤ args.length) "zrevrangebyscore"
  let key ← strArg args 1 "zrevrangebyscore"
  let hi ← boundArg args 2 maxNotFloat
  let lo ← boundArg args 3 minNotFloat
  let (offset, limit) := parseLimit args 4
  return .zrangebyscore key lo hi offset limit true (hasWithscores args 4)

/-- `ZPOPMIN` and `ZPOPMAX`. -/
def zpopCommand (cmd : String) (req : String → ℕ → Request) (args : List Frame) : Reading := do
  require (2 ≤ args.length) cmd
  let key ← strArg args 1 cmd
  return req key (((bulkAsI64 args 2).map fun n => n.1.toNat).getD 1)

/-- `ZPOPMIN key [count]`. -/
def cmdZpopmin : List Frame → Reading := zpopCommand "zpopmin" .zpopmin

/-- `ZPOPMAX key [count]`. -/
def cmdZpopmax : List Frame → Reading := zpopCommand "zpopmax" .zpopmax

/-- `ZREMRANGEBYRANK key start stop`. -/
def cmdZremrangebyrank : List Frame → Reading :=
  windowCommand "zremrangebyrank" .zremrangebyrank (· = 4)

/-- `ZREMRANGEBYSCORE key min max`. -/
def cmdZremrangebyscore (args : List Frame) : Reading := do
  require (args.length = 4) "zremrangebyscore"
  let key ← strArg args 1 "zremrangebyscore"
  let lo ← boundArg args 2 minNotFloat
  let hi ← boundArg args 3 maxNotFloat
  return .zremrangebyscore key lo hi

/-! ## INFO and DEBUG -/

/-- `INFO [section]`, with the section in any case. -/
def cmdInfo (args : List Frame) : Reading :=
  .ok (.info (((bulkAsStr args 1).map Text.toUppercase).getD "ALL"))

/-- The routing table, one line for each node. -/
def debugCluster (cfg : ClusterConfig) : String :=
  String.join (cfg.nodes.zipIdx.map fun (node, i) =>
    let ranges := ",".intercalate ((cfg.slotRangesFor i).map fun (a, b) => s!"{a}-{b}")
    let marker := if i = cfg.myIndex then " *" else ""
    s!"{node}{marker} slots:[{ranges}]\n")

/-- The health table, one line for each peer. -/
def debugHealth (rows : List (String × NodeState)) : String :=
  if rows = [] then "no peers\n"
  else String.join (rows.map fun (addr, state) => addr ++ " " ++ state.asStr ++ "\n")

/-- `DEBUG subcommand`. `SLEEP` and the last three answer `OK`. -/
def cmdDebug (ctx : CommandContext) (args : List Frame) : Reading := do
  let sub ← need ((bulkAsStr args 1).map Text.toUppercase)
    (.error "ERR wrong number of arguments for 'debug' command")
  match sub with
  | "SLEEP" => return .answer .ok
  | "OBJECT" =>
    let key ← need (bulkAsStr args 2) (.error "ERR syntax error")
    return .debugObject key
  | "CLUSTER" =>
    return .answer (.bulkStr (match ctx.cluster with
      | some cfg => debugCluster cfg
      | none => "cluster not enabled"))
  | "HEALTH" =>
    return .answer (.bulkStr (match ctx.health with
      | some rows => debugHealth rows
      | none => "cluster not enabled"))
  | "RELOAD" | "LOADAOF" | "JMAP" => return .answer .ok
  | _ => throw (.error s!"ERR unknown debug sub-command '{sub}'")

/-! ## Dispatch -/

/-- The handlers of the commands that a node serves by itself. -/
def commandTable (ctx : CommandContext) : List (String × (List Frame → Reading)) :=
  [("PING", cmdPing), ("ECHO", cmdEcho),
    ("QUIT", fun _ => .ok (.answer .ok)), ("SELECT", fun _ => .ok (.answer .ok)),
    ("CLIENT", fun _ => .ok (.answer .ok)), ("COMMAND", fun _ => .ok (.answer .emptyArray)),
    ("CONFIG", fun _ => .ok (.answer .emptyArray)),
    ("INFO", cmdInfo), ("DEBUG", cmdDebug ctx),
    ("DEL", cmdDel), ("EXISTS", cmdExists), ("TYPE", cmdType), ("EXPIRE", cmdExpire),
    ("PEXPIRE", cmdPexpire), ("TTL", cmdTtl), ("PTTL", cmdPttl), ("PERSIST", cmdPersist),
    ("KEYS", fun _ => .ok .keys), ("DBSIZE", fun _ => .ok .dbsize),
    ("FLUSHDB", fun _ => .ok .flush), ("FLUSHALL", fun _ => .ok .flush),
    ("GET", cmdGet), ("SET", cmdSet), ("MGET", cmdMget), ("MSET", cmdMset),
    ("STRLEN", cmdStrlen), ("APPEND", cmdAppend), ("INCR", cmdIncrby (Text.wrap 1)),
    ("DECR", cmdIncrby (Text.wrap (-1))),
    ("INCRBY", cmdIncrbyBy 1), ("DECRBY", cmdIncrbyBy (-1)), ("GETSET", cmdGetset),
    ("SETNX", cmdSetnx),
    ("LPUSH", cmdLpush), ("RPUSH", cmdRpush), ("LPOP", cmdLpop), ("RPOP", cmdRpop),
    ("LLEN", cmdLlen), ("LRANGE", cmdLrange), ("LINDEX", cmdLindex), ("LSET", cmdLset),
    ("LINSERT", cmdLinsert), ("LREM", cmdLrem), ("LTRIM", cmdLtrim), ("LMOVE", cmdLmove),
    ("HSET", cmdHset), ("HMSET", cmdHset), ("HGET", cmdHget), ("HMGET", cmdHmget),
    ("HGETALL", cmdHgetall), ("HDEL", cmdHdel), ("HLEN", cmdHlen), ("HEXISTS", cmdHexists),
    ("HKEYS", cmdHkeys), ("HVALS", cmdHvals), ("HSETNX", cmdHsetnx), ("HINCRBY", cmdHincrby),
    ("HINCRBYFLOAT", cmdHincrbyfloat),
    ("SADD", cmdSadd), ("SMEMBERS", cmdSmembers), ("SISMEMBER", cmdSismember), ("SREM", cmdSrem),
    ("SCARD", cmdScard), ("SMOVE", cmdSmove), ("SRANDMEMBER", cmdSrandmember), ("SPOP", cmdSpop),
    ("SUNION", cmdSunion), ("SINTER", cmdSinter), ("SDIFF", cmdSdiff),
    ("SUNIONSTORE", cmdSunionstore), ("SINTERSTORE", cmdSinterstore),
    ("SDIFFSTORE", cmdSdiffstore),
    ("ZADD", cmdZadd), ("ZSCORE", cmdZscore), ("ZRANK", cmdZrank), ("ZREVRANK", cmdZrevrank),
    ("ZCARD", cmdZcard), ("ZCOUNT", cmdZcount), ("ZINCRBY", cmdZincrby), ("ZREM", cmdZrem),
    ("ZRANGE", cmdZrange), ("ZREVRANGE", cmdZrevrange), ("ZRANGEBYSCORE", cmdZrangebyscore),
    ("ZREVRANGEBYSCORE", cmdZrevrangebyscore), ("ZPOPMIN", cmdZpopmin), ("ZPOPMAX", cmdZpopmax),
    ("ZREMRANGEBYRANK", cmdZremrangebyrank), ("ZREMRANGEBYSCORE", cmdZremrangebyscore)]

/-- What the command `name` asks of the store. -/
def readCommand (ctx : CommandContext) (name : String) (args : List Frame) : Reading :=
  match (commandTable ctx).lookup name with
  | some handler => handler args
  | none => .error (.error s!"ERR unknown command `{name}`")

/-- Read the arguments and run the request on this node. -/
def dispatch (ctx : CommandContext) (env : Env) (name : String) (args : List Frame) (s : Store) :
    Outcome :=
  match readCommand ctx name args with
  | .ok r => r.run ctx env s
  | .error f => ⟨f, s, []⟩

/-! ## Execution -/

/-- The commands that a replica refuses to its clients and a leader sends to its replicas.
`MIGRATE`, which deletes its key, is not among them. -/
def writeCommands : List String :=
  ["SET", "MSET", "SETNX", "GETSET", "APPEND",
    "INCR", "INCRBY", "DECR", "DECRBY",
    "DEL",
    "LPUSH", "RPUSH", "LPOP", "RPOP", "LSET", "LINSERT", "LREM", "LTRIM", "LMOVE",
    "HSET", "HMSET", "HDEL", "HINCRBY", "HINCRBYFLOAT", "HSETNX",
    "SADD", "SREM", "SMOVE", "SPOP", "SUNIONSTORE", "SINTERSTORE", "SDIFFSTORE",
    "ZADD", "ZREM", "ZINCRBY", "ZPOPMIN", "ZPOPMAX",
    "ZREMRANGEBYRANK", "ZREMRANGEBYSCORE",
    "EXPIRE", "PEXPIRE", "PERSIST",
    "FLUSHDB", "FLUSHALL"]

/-- Whether a command is one of the writes. -/
def isWrite (name : String) : Bool := name ∈ writeCommands

/-- The first 32 bytes of a command name in upper case, or nothing if they are not text. -/
def commandName (cmd : Bytes) : String :=
  (Utf8.fromUtf8 ((cmd.take 32).map Text.toAsciiUppercase)).getD ""

/-- Where a frame is served. -/
inductive Route where
  | reply (f : Frame)
  | propose (args : List Frame)
  | proxy (target : String) (args : List Frame)
  | remote (name : String) (args : List Frame)
  | dispatch (name : String) (args : List Frame)

/-- The other node that a command belongs to, if any, or an error. -/
def clusterRoute (cfg : ClusterConfig) (name : String) (args : List Frame) : Option Route :=
  match commandSlot name args with
  | .crossSlot => some (.reply (.error "CROSSSLOT Keys in request don't hash to the same slot"))
  | .slot slot => if cfg.isMine slot then none else some (.proxy (cfg.nodeForSlot slot) args)
  | .none => none

/-- The decision for a command that is not another node's. -/
def routeHere (ctx : CommandContext) (name : String) (args : List Frame) : Route :=
  if isWrite name && !ctx.isReplicaReplay && !ctx.isLeader then
    .reply (.error "READONLY You can't write against a read only replica.")
  else if name = "CLUSTER" ∨ name = "MIGRATE" then .remote name args
  else .dispatch name args

/-- The decision for a request with a command name : writes go through the Raft log if
there is one, and other commands to the node that owns their keys. -/
def routeCommand (ctx : CommandContext) (name : String) (args : List Frame) : Route :=
  match ctx.isReplicaReplay, isWrite name, ctx.raft, ctx.cluster with
  | false, true, some raft, _ =>
    if raft.isLeader then .propose args
    else
      let leader := raft.currentLeader.getD ""
      .reply (.error s!"MOVED {leader}")
  | false, _, _, some cfg =>
    if name = "CLUSTER" then routeHere ctx name args
    else (clusterRoute cfg name args).getD (routeHere ctx name args)
  | _, _, _, _ => routeHere ctx name args

theorem routeCommand_single {ctx : CommandContext} (hraft : ctx.raft = none)
    (hcluster : ctx.cluster = none) (name : String) (args : List Frame) :
    routeCommand ctx name args = routeHere ctx name args := by
  rw [routeCommand, hraft, hcluster]
  cases ctx.isReplicaReplay <;> cases isWrite name <;> rfl

/-- A replay is served on this node, whatever its Raft and cluster. -/
theorem routeCommand_replay {ctx : CommandContext} (hreplay : ctx.isReplicaReplay = true)
    (name : String) (args : List Frame) : routeCommand ctx name args = routeHere ctx name args := by
  rw [routeCommand, hreplay]

/-- Where a frame goes. What is no command is answered at once. -/
def route (ctx : CommandContext) : Frame → Route
  | .array (some []) => .reply (.error "ERR empty command")
  | .array (some args) =>
    match bulkBytes args 0 with
    | none => .reply (.error "ERR invalid command name")
    | some cmd => routeCommand ctx (commandName cmd) args
  | _ => .reply (.error "ERR invalid command format")

/-- Execute a frame on this node; what leaves it is served by `elsewhere`. -/
def execute (ctx : CommandContext) (elsewhere : Route → Store → Outcome) (env : Env)
    (frame : Frame) (s : Store) : Outcome :=
  match route ctx frame with
  | .reply f => ⟨f, s, []⟩
  | .dispatch name args => dispatch ctx env name args s
  | r => elsewhere r s

/-- The context of a client on a node without Raft, cluster or replication. -/
def CommandContext.standalone : CommandContext where
  isLeader := true
  leaderAddr := none
  commitCount := 0
  raft := none
  cluster := none
  health := none
  metrics := none
  isReplicaReplay := false

end LoonyRedis
