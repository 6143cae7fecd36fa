import LoonyRedis.Collections
import LoonyRedis.SortedSet

/-!
# The store

A store maps keys to entries : a value of one of five types, and the time at which it
expires, if it does. Expiry is lazy : an expired entry stays until something removes it,
and each method decides by itself whether it looks at the time.

Most methods follow one of three patterns, over the type of value they work on (`Kind`) :
look the key up and answer a default if it is missing (`Store.read`), the same with a
change in place (`Store.update`), or create the key if it is missing and change it
(`Store.upsert`). All of them refuse a key that holds another type.
-/

namespace LoonyRedis

open Std

/-- A value of one of the five types. -/
inductive Value where
  | string (b : Bytes)
  | list (l : RedisList)
  | hash (h : RedisHash)
  | set (s : RedisSet)
  | zset (z : ZSet)

/-- A value, with the time in nanoseconds after which it has expired, if there is one. -/
structure Entry where
  value : Value
  expiresAt : Option ℕ

/-- An entry expires once the clock is past its time, not at it. -/
def Entry.isExpired (now : ℕ) (e : Entry) : Bool :=
  match e.expiresAt with
  | some t => t < now
  | none => false

/-- The keys, with their entries. -/
abbrev Store := ExtTreeMap String Entry compare

/-! ## Values of one type -/

/-- One of the five types of values. -/
structure Kind (α : Type) where
  view : Value → Option α
  wrap : α → Value
  view_wrap : ∀ a, view (wrap a) = some a
  wrap_view : ∀ {v a}, view v = some a → wrap a = v

namespace Kind

/-- Values that are strings. -/
def string : Kind Bytes where
  view | .string b => some b | _ => none
  wrap := .string
  view_wrap _ := rfl
  wrap_view {v a} h := by cases v <;> simp_all

/-- Values that are lists. -/
def list : Kind RedisList where
  view | .list l => some l | _ => none
  wrap := .list
  view_wrap _ := rfl
  wrap_view {v a} h := by cases v <;> simp_all

/-- Values that are hashes. -/
def hash : Kind RedisHash where
  view | .hash h => some h | _ => none
  wrap := .hash
  view_wrap _ := rfl
  wrap_view {v a} h := by cases v <;> simp_all

/-- Values that are sets. -/
def set : Kind RedisSet where
  view | .set s => some s | _ => none
  wrap := .set
  view_wrap _ := rfl
  wrap_view {v a} h := by cases v <;> simp_all

/-- Values that are sorted sets. -/
def zset : Kind ZSet where
  view | .zset z => some z | _ => none
  wrap := .zset
  view_wrap _ := rfl
  wrap_view {v a} h := by cases v <;> simp_all

end Kind

/-- The error for a key that holds another type. -/
def wrongType : String := "WRONGTYPE Operation against a key holding the wrong kind of value"

/-- A store method : a result or the text of an error, and the store afterwards. -/
abbrev Op (β : Type) := Store → Except String β × Store

namespace Store

variable {α β : Type}

/-- Look `key` up : `dflt` if it is missing, `f` of its value, or an error. -/
def read (K : Kind α) (key : String) (dflt : β) (f : α → β) (s : Store) : Except String β :=
  match s[key]? with
  | none => .ok dflt
  | some e =>
    match K.view e.value with
    | some a => .ok (f a)
    | none => .error wrongType

/-- Change the value of `key` in place, if it is there. -/
def update (K : Kind α) (key : String) (dflt : β) (f : α → Except String β × α) : Op β := fun s =>
  match s[key]? with
  | none => (.ok dflt, s)
  | some e =>
    match K.view e.value with
    | some a => ((f a).1, s.insert key { e with value := K.wrap (f a).2 })
    | none => (.error wrongType, s)

/-- Change the value of `key` in place, after inserting `init` if it is missing. A key of
another type was there before, so the store is as it was then. -/
def upsert (K : Kind α) (key : String) (init : α) (f : α → Except String β × α) : Op β := fun s =>
  let e := s[key]?.getD ⟨K.wrap init, none⟩
  match K.view e.value with
  | some a => ((f a).1, s.insert key { e with value := K.wrap (f a).2 })
  | none => (.error wrongType, s)

/-- A change that cannot fail. -/
def done (r : β × α) : Except String β × α := (.ok r.1, r.2)

/-- Move something between two values of a type : it is taken from the source before the
destination is looked at. -/
def move (K : Kind α) (src dst : String) (init : α) (take : α → Option β × α)
    (give : β → α → α) : Op (Option β) := fun s =>
  match update K src none (fun a => done (take a)) s with
  | (.error e, s) => (.error e, s)
  | (.ok none, s) => (.ok none, s)
  | (.ok (some b), s) => upsert K dst init (fun a => done (some b, give b a)) s

section Patterns

variable {K : Kind α} {key : String} {s : Store} {e : Entry} {a : α} {dflt : β} {init : α}
  {g : α → β} {f : α → Except String β × α}

theorem read_none (h : s[key]? = none) : read K key dflt g s = .ok dflt := by
  simp only [read, h]

theorem read_some (h : s[key]? = some e) (hv : K.view e.value = some a) :
    read K key dflt g s = .ok (g a) := by
  simp only [read, h, hv]

theorem read_wrong (h : s[key]? = some e) (hv : K.view e.value = none) :
    read K key dflt g s = .error wrongType := by
  simp only [read, h, hv]

theorem update_none (h : s[key]? = none) : update K key dflt f s = (.ok dflt, s) := by
  simp only [update, h]

theorem update_some (h : s[key]? = some e) (hv : K.view e.value = some a) :
    update K key dflt f s = ((f a).1, s.insert key { e with value := K.wrap (f a).2 }) := by
  simp only [update, h, hv]

theorem update_wrong (h : s[key]? = some e) (hv : K.view e.value = none) :
    update K key dflt f s = (.error wrongType, s) := by
  simp only [update, h, hv]

theorem upsert_none (h : s[key]? = none) :
    upsert K key init f s = ((f init).1, s.insert key ⟨K.wrap (f init).2, none⟩) := by
  simp only [upsert, h, Option.getD_none, K.view_wrap]

theorem upsert_some (h : s[key]? = some e) (hv : K.view e.value = some a) :
    upsert K key init f s = ((f a).1, s.insert key { e with value := K.wrap (f a).2 }) := by
  simp only [upsert, h, Option.getD_some, hv]

theorem upsert_wrong (h : s[key]? = some e) (hv : K.view e.value = none) :
    upsert K key init f s = (.error wrongType, s) := by
  simp only [upsert, h, Option.getD_some, hv]

section Move

variable {src dst : String} {take : α → Option β × α} {give : β → α → α}

theorem move_none (h : s[src]? = none) :
    move K src dst init take give s = (.ok none, s) := by
  simp only [move, update_none h]

theorem move_wrong (h : s[src]? = some e) (hv : K.view e.value = none) :
    move K src dst init take give s = (.error wrongType, s) := by
  simp only [move, update_wrong h hv]

theorem move_empty (h : s[src]? = some e) (hv : K.view e.value = some a)
    (ht : (take a).1 = none) : move K src dst init take give s =
      (.ok none, s.insert src { e with value := K.wrap (take a).2 }) := by
  simp only [move, update_some h hv, done, ht]

theorem move_some {b : β} (h : s[src]? = some e) (hv : K.view e.value = some a)
    (ht : (take a).1 = some b) : move K src dst init take give s =
      upsert K dst init (fun a => done (some b, give b a))
        (s.insert src { e with value := K.wrap (take a).2 }) := by
  simp only [move, update_some h hv, done, ht]

end Move

/-- Writing the value back changes nothing. -/
theorem insert_view (h : s[key]? = some e) (hv : K.view e.value = some a) :
    s.insert key { e with value := K.wrap a } = s := by
  rw [K.wrap_view hv]
  exact FinMap.insert_of_getElem? h

/-- Writing another value back changes the store. -/
theorem insert_wrap_eq_iff {a' : α} (h : s[key]? = some e) (hv : K.view e.value = some a) :
    s.insert key { e with value := K.wrap a' } = s ↔ a' = a := by
  refine ⟨fun heq => ?_, fun ha => by rw [ha, insert_view h hv]⟩
  have hsame : (s.insert key { e with value := K.wrap a' })[key]? = some e := by rw [heq, h]
  rw [FinMap.getElem?_insert_self, Option.some.injEq] at hsame
  have hview : K.view (K.wrap a') = some a := by
    rw [← hv, ← congrArg Entry.value hsame]
  rw [K.view_wrap, Option.some.injEq] at hview
  exact hview

end Patterns

/-! ## Key space -/

/-- The value of a live key; an expired one is removed. -/
def get (now : ℕ) (key : String) (s : Store) : Option Value × Store :=
  match s[key]? with
  | none => (none, s)
  | some e => if e.isExpired now then (none, s.erase key) else (some e.value, s)

/-- Overwrite a key, whatever it held. Without a time to live, it does not expire. -/
def set (now : ℕ) (key : String) (value : Value) (ttl : Option ℕ) (s : Store) : Store :=
  s.insert key ⟨value, ttl.map (now + ·)⟩

/-- Remove the keys one after the other; the number of those that were there, expired or not. -/
def del : List String → Store → ℕ × Store
  | [], s => (0, s)
  | k :: ks, s =>
    ((if s.contains k then 1 else 0) + (del ks (s.erase k)).1, (del ks (s.erase k)).2)

/-- Whether the key is live. An expired one stays where it is. -/
def exists_ (now : ℕ) (key : String) (s : Store) : Bool :=
  match s[key]? with
  | none => false
  | some e => !e.isExpired now

/-- Give a live key a time to live; whether there was one. -/
def expire (now : ℕ) (key : String) (ttl : ℕ) (s : Store) : Bool × Store :=
  match s[key]? with
  | none => (false, s)
  | some e =>
    if e.isExpired now then (false, s)
    else (true, s.insert key { e with expiresAt := some (now + ttl) })

/-- Nanoseconds in a millisecond. -/
def nanosPerMilli : ℕ := 1000000

/-- Nanoseconds in a second. -/
def nanosPerSec : ℕ := 1000000000

/-- The remaining time in milliseconds, -1 without expiry and -2 without key. -/
def pttl (now : ℕ) (key : String) (s : Store) : ℤ :=
  match s[key]? with
  | none => -2
  | some e =>
    if e.isExpired now then -2
    else match e.expiresAt with
      | none => -1
      | some t => if t ≤ now then -2 else Text.wrap ((t - now) / nanosPerMilli : ℕ)

/-- Remove the expiry of a key, also of one that has expired; whether it had one. -/
def persist (key : String) (s : Store) : Bool × Store :=
  match s[key]? with
  | none => (false, s)
  | some e =>
    if e.expiresAt.isSome then (true, s.insert key { e with expiresAt := none }) else (false, s)

/-- The name of the type of a live key. -/
def typeOf (now : ℕ) (key : String) (s : Store) : String :=
  match s[key]? with
  | none => "none"
  | some e =>
    if e.isExpired now then "none"
    else match e.value with
      | .string _ => "string"
      | .list _ => "list"
      | .hash _ => "hash"
      | .set _ => "set"
      | .zset _ => "zset"

/-- The number of keys, the expired ones included. -/
def keysCount (s : Store) : ℕ := s.size

/-- The entries that have not expired. -/
def live (now : ℕ) (s : Store) : Store := s.filter fun _ e => !e.isExpired now

/-- The numbers of live keys and of live keys with an expiry. -/
def keyspaceInfo (now : ℕ) (s : Store) : ℕ × ℕ :=
  ((s.live now).size, ((s.live now).filter fun _ e => e.expiresAt.isSome).size)

/-- The type, the encoding and the size of a value, for `debugObject`. -/
def describe : Value → String × String × ℕ
  | .string b => ("string", if b.length ≤ 44 then "embstr" else "raw", b.length)
  | .list l => ("list", match l with | .small _ => "listpack" | .large _ => "quicklist", l.len)
  | .hash h => ("hash", match h with | .small _ => "listpack" | .large _ => "hashtable", h.len)
  | .set s => ("set", match s with | .small _ => "listpack" | .large _ => "hashtable", s.len)
  | .zset z => ("zset", "skiplist", z.len)

/-- The text of `DEBUG OBJECT` for a live key. -/
def debugObject (now : ℕ) (key : String) (s : Store) : Option String :=
  match s[key]? with
  | none => none
  | some e =>
    if e.isExpired now then none
    else
      let (type, encoding, sz) := describe e.value
      let idle := match e.expiresAt with
        | some t => (t - now) / nanosPerSec
        | none => 0
      some (s!"Value at 0x0 refcount:1 encoding:{encoding} " ++
        s!"serializedlength:{sz} lru:0 lru_seconds_idle:{idle} type:{type}")

/-- The live keys, in the order of the table. -/
def allKeys (env : Env) (s : Store) : List String := env.keyOrder (s.live env.now).keys

/-- Remove every key. -/
def flush (_ : Store) : Store := ∅

/-! ## Snapshot -/

/-- One key of a full-sync, with what recreates its value. -/
inductive SnapshotEntry where
  | string (key : String) (value : Bytes)
  | list (key : String) (items : List Bytes)
  | hash (key : String) (fields : List (Bytes × Bytes))
  | set (key : String) (members : List Bytes)
  | zset (key : String) (members : List (Bytes × F64))

/-- The snapshot of one key : empty collections are left out. -/
def snapshotEntry (env : Env) (key : String) : Value → Option SnapshotEntry
  | .string b => some (.string key b)
  | .list l => if l.isEmpty then none else some (.list key l.toVec)
  | .hash h => if h.isEmpty then none else some (.hash key (h.allPairs env))
  | .set s => if s.isEmpty then none else some (.set key (s.members env))
  | .zset z => if z.isEmpty then none else some (.zset key z.allWithScores)

/-- The snapshots of the live keys. -/
def snapshot (env : Env) (s : Store) : List SnapshotEntry :=
  (s.allKeys env).filterMap fun k => s[k]?.bind fun e => snapshotEntry env k e.value

/-! ## Strings -/

/-- Overwrite a key with a string; the old value, if it was a live string. -/
def getset (now : ℕ) (key : String) (newVal : Bytes) (s : Store) : Option Bytes × Store :=
  let (v, s) := s.get now key
  let old := match v with
    | some (.string b) => some b
    | _ => none
  (old, s.set now key (.string newVal) none)

/-- Extend the string of a key; its new length. -/
def append (key : String) (suffix : Bytes) : Op ℕ :=
  upsert .string key [] fun b => done ((b ++ suffix).length, b ++ suffix)

/-- The integer that a byte string holds. -/
def parseInt (b : Bytes) : Option Text.I64 :=
  (Utf8.fromUtf8 b).bind fun t => Text.parseI64 (Text.trim t.toList)

/-- Add to the integer of a key, which starts at 0; an overflow is refused. -/
def incrby (key : String) (delta : Text.I64) : Op ℤ :=
  upsert .string key (Utf8.toBytes "0") fun b =>
    match parseInt b with
    | none => (.error "ERR value is not an integer or out of range", b)
    | some n =>
      match Text.checkedAdd n delta with
      | none => (.error "ERR increment or decrement would overflow", b)
      | some r => (.ok r, Utf8.toBytes (toString r.1))

/-! ## Lists -/

/-- Push the values one after the other at the head; the new length. -/
def lpush (key : String) (values : List Bytes) : Op ℕ :=
  upsert .list key .new fun l =>
    let l := values.foldl RedisList.pushFront l
    done (l.len, l)

/-- Push the values one after the other at the tail; the new length. -/
def rpush (key : String) (values : List Bytes) : Op ℕ :=
  upsert .list key .new fun l =>
    let l := values.foldl RedisList.pushBack l
    done (l.len, l)

/-- Take up to `count` elements from the head. -/
def lpop (key : String) (count : ℕ) : Op (List Bytes) :=
  update .list key [] fun l => done (l.popFrontN count)

/-- Take up to `count` elements from the tail. -/
def rpop (key : String) (count : ℕ) : Op (List Bytes) :=
  update .list key [] fun l => done (l.popBackN count)

/-- The length of a list. -/
def llen (key : String) : Store → Except String ℕ :=
  read .list key 0 RedisList.len

/-- The position of `index`, which counts from the end if it is negative. -/
def listIndex (l : RedisList) (index : ℤ) : Option ℕ :=
  let idx : ℤ := if index < 0 then Text.wrap (l.len + index) else index
  if idx < 0 ∨ (l.len : ℤ) ≤ idx then none else some idx.toNat

/-- The element at `index`. -/
def lindex (key : String) (index : ℤ) : Store → Except String (Option Bytes) :=
  read .list key none fun l => (listIndex l index).bind l.get

/-- The elements from `start` to `stop`, both included. -/
def lrange (key : String) (start stop : ℤ) : Store → Except String (List Bytes) :=
  read .list key [] fun l =>
    let (s, e) := Text.window l.len start stop
    l.range s e

/-- Overwrite the element at `index`. A missing key answers `false`, a missing index an
error. -/
def lset (key : String) (index : ℤ) (val : Bytes) : Op Bool :=
  update .list key false fun l =>
    match listIndex l index with
    | none => (.error "ERR index out of range", l)
    | some i => done (l.setIndex i val)

/-- Insert `val` next to the first `pivot` : the new length, -1 without the pivot, 0 without the
key. -/
def linsert (key : String) (before : Bool) (pivot val : Bytes) : Op ℤ :=
  update .list key 0 fun l =>
    done (if before then l.insertBefore pivot val else l.insertAfter pivot val)

/-- Remove `count` occurrences of `val`; how many were removed. -/
def lrem (key : String) (count : ℤ) (val : Bytes) : Op ℕ :=
  update .list key 0 fun l => done (l.lrem count val)

/-- Keep the elements from `start` to `stop`. -/
def ltrim (key : String) (start stop : ℤ) : Op Unit :=
  update .list key () fun l => done ((), l.ltrim start stop)

/-- Take an element from one list and push it to another. -/
def lmove (src dst : String) (fromLeft toLeft : Bool) : Op (Option Bytes) :=
  move .list src dst .new (fun l => if fromLeft then l.popFront else l.popBack)
    fun val l => if toLeft then l.pushFront val else l.pushBack val

/-! ## Hashes -/

/-- Set a field : 1 if it is new. -/
def hset (key : String) (field value : Bytes) : Op ℕ :=
  upsert .hash key .new fun h => done (h.hset field value)

/-- Set a field that is missing; whether it was. -/
def hsetnx (key : String) (field value : Bytes) : Op Bool :=
  upsert .hash key .new fun h => done (h.hsetnx field value)

/-- The value of a field. -/
def hget (key : String) (field : Bytes) : Store → Except String (Option Bytes) :=
  read .hash key none fun h => h.get field

/-- The fields with their values. -/
def hgetall (env : Env) (key : String) : Store → Except String (List (Bytes × Bytes)) :=
  read .hash key [] fun h => h.allPairs env

/-- Remove fields; the number of those that were there. -/
def hdel (key : String) (fields : List Bytes) : Op ℕ :=
  update .hash key 0 fun h => done (h.hdel fields)

/-- The number of fields. -/
def hlen (key : String) : Store → Except String ℕ :=
  read .hash key 0 RedisHash.len

/-- Whether a field is there. -/
def hexists (key : String) (field : Bytes) : Store → Except String Bool :=
  read .hash key false fun h => h.contains field

/-- The fields. -/
def hkeys (env : Env) (key : String) : Store → Except String (List Bytes) :=
  read .hash key [] fun h => h.keys env

/-- The values of the fields. -/
def hvals (env : Env) (key : String) : Store → Except String (List Bytes) :=
  read .hash key [] fun h => h.values env

/-- Add to the integer of a field, which starts at 0; an overflow is refused. -/
def hincrby (key : String) (field : Bytes) (delta : Text.I64) : Op ℤ :=
  upsert .hash key .new fun h =>
    match (match h.get field with | none => Text.fits 0 | some b => parseInt b) with
    | none => (.error "ERR hash value is not an integer", h)
    | some old =>
      match Text.checkedAdd old delta with
      | none => (.error "ERR increment would overflow", h)
      | some r => (.ok r, (h.hset field (Utf8.toBytes (toString r.1))).2)

/-- The double that a byte string holds. -/
def parseFloat (b : Bytes) : Option F64 :=
  (Utf8.fromUtf8 b).bind fun t => F64.parse (String.ofList (Text.trim t.toList))

/-- Add to the double of a field, which starts at 0, and write the sum in decimal. -/
def hincrbyfloat (key : String) (field : Bytes) (delta : F64) : Op F64 :=
  upsert .hash key .new fun h =>
    match (match h.get field with | none => some F64.zero | some b => parseFloat b) with
    | none => (.error "ERR hash value is not a float", h)
    | some old =>
      let newVal := old.add delta
      (.ok newVal, (h.hset field (Utf8.toBytes newVal.display)).2)

/-! ## Sets -/

/-- Add members; the number of new ones. -/
def sadd (key : String) (members : List Bytes) : Op ℕ :=
  upsert .set key .new fun t => done (t.sadd members)

/-- The members. -/
def smembers (env : Env) (key : String) : Store → Except String (List Bytes) :=
  read .set key [] fun t => t.members env

/-- Whether a member is there. -/
def sismember (key : String) (member : Bytes) : Store → Except String Bool :=
  read .set key false fun t => t.contains member

/-- Remove members; the number of those that were there. -/
def srem (key : String) (members : List Bytes) : Op ℕ :=
  update .set key 0 fun t => done (t.srem members)

/-- The number of members. -/
def scard (key : String) : Store → Except String ℕ :=
  read .set key 0 RedisSet.len

/-- Take a member from one set and add it to another; whether it was there. -/
def smove (src dst : String) (member : Bytes) : Op Bool := fun s =>
  let r := move .set src dst .new (fun t => (if (t.removeOne member).1 then some member else none,
    (t.removeOne member).2)) (fun m t => (t.sadd [m]).2) s
  (r.1.map Option.isSome, r.2)

/-- Random members, which stay in the set. -/
def srandmember (env : Env) (key : String) (count : ℤ) : Store → Except String (List Bytes) :=
  read .set key [] fun t => t.randomMembers env count

/-- Take up to `count` random members. -/
def spop (env : Env) (key : String) (count : ℕ) : Op (List Bytes) :=
  update .set key [] fun t => done (t.spop env count)

/-- The sets at `keys`, where a missing key counts as an empty set. -/
def getSets (keys : List String) (s : Store) : Except String (List RedisSet) :=
  keys.mapM fun k => s.read .set k RedisSet.new id

/-- Combine the first of the sets at `keys` with the others. -/
def combine (f : RedisSet → List RedisSet → ExtTreeSet Bytes compare) (env : Env)
    (keys : List String) (s : Store) : Except String (List Bytes) := do
  match ← s.getSets keys with
  | [] => return []
  | t :: ts => return env.memberOrder (f t ts).toList

/-- The members of some set. -/
def sunion : Env → List String → Store → Except String (List Bytes) := combine RedisSet.unionWith

/-- The members of all sets. -/
def sinter : Env → List String → Store → Except String (List Bytes) := combine RedisSet.intersectWith

/-- The members of the first set that are in no other. -/
def sdiff : Env → List String → Store → Except String (List Bytes) := combine RedisSet.diffWith

/-- Combine the sets at `keys` and store the result at `dst`, whatever it held. -/
def combineStore (f : RedisSet → List RedisSet → ExtTreeSet Bytes compare) (env : Env)
    (dst : String) (keys : List String) : Op ℕ := fun s =>
  match combine f env keys s with
  | .error e => (.error e, s)
  | .ok result =>
    (.ok result.length, s.insert dst ⟨.set (RedisSet.new.sadd result).2, none⟩)

/-- Store the union at a key; its size. -/
def sunionstore : Env → String → List String → Op ℕ := combineStore RedisSet.unionWith

/-- Store the intersection at a key; its size. -/
def sinterstore : Env → String → List String → Op ℕ := combineStore RedisSet.intersectWith

/-- Store the difference at a key; its size. -/
def sdiffstore : Env → String → List String → Op ℕ := combineStore RedisSet.diffWith

/-! ## Sorted sets -/

/-- Give a member a score under the flags; the numbers of added members and of changed ones,
which include the added. -/
def zadd (key : String) (score : F64) (member : Bytes) (nx xx gt lt : Bool) : Op (ℕ × ℕ) :=
  upsert .zset key .new fun z => done (z.zadd score member nx xx gt lt)

/-- The score of a member. -/
def zscore (key : String) (member : Bytes) : Store → Except String (Option F64) :=
  read .zset key none fun z => z.zscore member

/-- The position of a member from the lowest score. -/
def zrank (key : String) (member : Bytes) : Store → Except String (Option ℕ) :=
  read .zset key none fun z => z.zrank member

/-- The position of a member from the highest score. -/
def zrevrank (key : String) (member : Bytes) : Store → Except String (Option ℕ) :=
  read .zset key none fun z => z.zrevrank member

/-- Add to the score of a member, which starts at 0; the sum. -/
def zincrby (key : String) (delta : F64) (member : Bytes) : Op F64 :=
  upsert .zset key .new fun z => done (z.zincrby delta member)

/-- Remove members; the number of those that were there. -/
def zrem (key : String) (members : List Bytes) : Op ℕ :=
  update .zset key 0 fun z => done (z.zrem members)

/-- The number of members. -/
def zcard (key : String) : Store → Except String ℕ :=
  read .zset key 0 ZSet.len

/-- The number of members with scores between the bounds. -/
def zcount (key : String) (lo hi : ScoreBound) : Store → Except String ℕ :=
  read .zset key 0 fun z => z.zcount lo hi

/-- The members with ranks from `start` to `stop`, in the order of the scores or, with `rev`,
reversed. -/
def zrange (key : String) (start stop : ℤ) (rev : Bool) :
    Store → Except String (List (Bytes × F64)) :=
  read .zset key [] fun z => z.zrangeByRank start stop rev

/-- The members with scores between the bounds, a window of them. -/
def zrangebyscore (key : String) (lo hi : ScoreBound) (offset : ℕ) (limit : Option ℕ)
    (rev : Bool) : Store → Except String (List (Bytes × F64)) :=
  read .zset key [] fun z => z.zrangebyscore lo hi offset limit rev

/-- Take up to `count` members with the lowest scores. -/
def zpopmin (key : String) (count : ℕ) : Op (List (Bytes × F64)) :=
  update .zset key [] fun z => done (z.zpopmin count)

/-- Take up to `count` members with the highest scores. -/
def zpopmax (key : String) (count : ℕ) : Op (List (Bytes × F64)) :=
  update .zset key [] fun z => done (z.zpopmax count)

/-- Remove the members with ranks from `start` to `stop`; how many were removed. -/
def zremrangebyrank (key : String) (start stop : ℤ) : Op ℕ :=
  update .zset key 0 fun z => done (z.zremrangebyrank start stop)

/-- Remove the members with scores between the bounds; how many were removed. -/
def zremrangebyscore (key : String) (lo hi : ScoreBound) : Op ℕ :=
  update .zset key 0 fun z => done (z.zremrangebyscore lo hi)

/-! ## One pair, one element -/

section Held

variable {s : Store} {key : String} {e : Entry}

/-- A field is set in a hash that is there. -/
theorem hset_some {h : RedisHash} (hs : s[key]? = some e) (hv : Kind.hash.view e.value = some h)
    (field value : Bytes) : s.hset key field value = (.ok (h.hset field value).1,
      s.insert key { e with value := Kind.hash.wrap (h.hset field value).2 }) :=
  upsert_some hs hv

/-- An element is added to a sorted set that is there. -/
theorem zadd_some {z : ZSet} (hs : s[key]? = some e) (hv : Kind.zset.view e.value = some z)
    (score : F64) (member : Bytes) (nx xx gt lt : Bool) :
    s.zadd key score member nx xx gt lt = (.ok (z.zadd score member nx xx gt lt).1,
      s.insert key { e with value := Kind.zset.wrap (z.zadd score member nx xx gt lt).2 }) :=
  upsert_some hs hv

end Held

end Store

end LoonyRedis
