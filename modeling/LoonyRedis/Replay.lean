import LoonyRedis.Commands
import LoonyRedis.Contents
import LoonyRedis.ErrorReplies

/-!
# Recreating a value with a command

A full-sync and a migration send the value of a key as the command that creates it :
`SET`, `RPUSH`, `HSET`, `SADD` or `ZADD` with all elements. Served on a store without the
key, the command inserts `SnapshotEntry.value`, which has the contents of the value it was
made from, except that `ZADD` skips scores that are not a number.
-/

namespace LoonyRedis

open Std

/-! ## Contents -/

/-- What a value contains, whatever its encoding. -/
inductive Content where
  | string (b : Bytes)
  | list (l : List Bytes)
  | hash (fields : Bytes → Option Bytes)
  | set (members : Bytes → Bool)
  | zset (z : ZSet)

namespace Content

/-- The bytes of a string. -/
def bytesOf : Option Content → Bytes
  | some (.string b) => b
  | _ => []

/-- The number of elements of a list. -/
def lengthOf : Option Content → ℕ
  | some (.list l) => l.length
  | _ => 0

/-- Whether `m` is a member of a set. -/
def hasMember (m : Bytes) : Option Content → Bool
  | some (.set members) => members m
  | _ => false

end Content

/-- What a value holds, whatever its encoding and the order of its parts. -/
def Value.content : Value → Content
  | .string b => .string b
  | .list l => .list l.toVec
  | .hash h => .hash h.get
  | .set t => .set t.contains
  | .zset z => .zset z

/-- A collection without elements. -/
def Value.isEmpty : Value → Bool
  | .string _ => false
  | .list l => l.isEmpty
  | .hash h => h.isEmpty
  | .set t => t.isEmpty
  | .zset z => z.isEmpty

/-- A sorted set in which a score is not a number. -/
def Value.HasNaN : Value → Prop
  | .zset z => ∃ (m : Bytes) (x : F64), z.scores[m]? = some x ∧ x.isNaN = true
  | _ => False

/-- `ZADD` with the members of `z` makes `w` equal to `z` : `w` has no other members, none
of them has a zero of the other sign, and a score that is not a number is there already. -/
def ZSet.OverwrittenBy (w z : ZSet) : Prop :=
  ∀ m : Bytes, match z.scores[m]? with
    | none => w.scores[m]? = none
    | some x => (x.isNaN = true → w.scores[m]? = some x) ∧
        ∀ y, w.scores[m]? = some y → x.eq y = true → y = x

/-- Sending the value to a key that holds `old` gives the key the contents of the value. -/
def Value.TakesOver : Value → Option Value → Prop
  | .string _, _ => True
  | .list _, none | .hash _, none | .set _, none => True
  | .list _, some (.list old) => old.toVec = []
  | .hash h, some (.hash old) => ∀ f, (old.get f).isSome = true → (h.get f).isSome = true
  | .set t, some (.set old) => ∀ m, old.contains m = true → t.contains m = true
  | .zset z, none => ZSet.new.OverwrittenBy z
  | .zset z, some (.zset old) => old.OverwrittenBy z
  | _, _ => False

/-! ## Changing an old value -/

section Over

variable {α β : Type} {K : Kind α} {key : String} {init : α} {f : α → Except String β × α}

/-- What is left at a key that held `old` : the value with a change, a new value with it, or
a value of another type as it was. -/
def Store.overwrite (K : Kind α) (init : α) (g : α → α) : Option Value → Value
  | none => K.wrap (g init)
  | some v =>
    match K.view v with
    | some a => K.wrap (g a)
    | none => v

theorem Store.over_view {g : α → α} {v : Value} {a : α} (hv : K.view v = some a) :
    overwrite K init g (some v) = K.wrap (g a) := by
  simp only [overwrite, hv]

/-- A value of another type stays. -/
theorem Store.over_wrong {g : α → α} {v : Value} (hv : K.view v = none) :
    overwrite K init g (some v) = v := by
  simp only [overwrite, hv]

/-- What `upsert` writes, whether the key is there or not. -/
theorem Store.upsert_snd (s : Store) : (upsert K key init f s).2 = s.insert key
    ⟨overwrite K init (fun a => (f a).2) (s[key]?.map Entry.value), s[key]?.bind Entry.expiresAt⟩ := by
  cases hkey : s[key]? with
  | none => rw [upsert_none hkey]; rfl
  | some e =>
    cases hv : K.view e.value with
    | some a =>
      rw [upsert_some hkey hv, Option.map_some, over_view hv]
      rfl
    | none =>
      rw [upsert_wrong hkey hv, Option.map_some, over_wrong hv]
      exact (FinMap.insert_of_getElem? hkey).symm

end Over

/-! ## The commands -/

open Store (SnapshotEntry)

/-- The pairs of a sorted set as arguments of `ZADD`. -/
def scoredArgs (members : List (Bytes × F64)) : List Frame :=
  members.flatMap fun p => [.bulkStr p.2.display, .bulk (some p.1)]

/-- Fields and values in turn, as arguments. -/
def fieldArgs (fields : List (Bytes × Bytes)) : List Frame :=
  fields.flatMap fun p => [.bulk (some p.1), .bulk (some p.2)]

/-- Elements as arguments. -/
def bulkArgs (items : List Bytes) : List Frame := items.map fun b => .bulk (some b)

/-- The command that recreates an entry of a snapshot. -/
def snapshotEntryToResp : SnapshotEntry → Frame
  | .string key value => .array (some [.bulkStr "SET", .bulkStr key, .bulk (some value)])
  | .list key items => .array (some (.bulkStr "RPUSH" :: .bulkStr key :: bulkArgs items))
  | .hash key fields => .array (some (.bulkStr "HSET" :: .bulkStr key :: fieldArgs fields))
  | .set key members => .array (some (.bulkStr "SADD" :: .bulkStr key :: bulkArgs members))
  | .zset key members => .array (some (.bulkStr "ZADD" :: .bulkStr key :: scoredArgs members))

/-- The command that recreates `key` with `value`, and with its expiry if it is a string. -/
def buildValueFrame (env : Env) (key : String) (value : Value) (pttl : ℤ) : Frame :=
  match value with
  | .string b => .array (some ([.bulkStr "SET", .bulkStr key, .bulk (some b)] ++
      if 0 < pttl then [.bulkStr "PX", .bulkStr (toString pttl)] else []))
  | .list l => .array (some (.bulkStr "RPUSH" :: .bulkStr key :: bulkArgs l.toVec))
  | .hash h => .array (some (.bulkStr "HSET" :: .bulkStr key :: fieldArgs (h.allPairs env)))
  | .set t => .array (some (.bulkStr "SADD" :: .bulkStr key :: bulkArgs (t.members env)))
  | .zset z => .array (some (.bulkStr "ZADD" :: .bulkStr key :: scoredArgs z.allWithScores))

/-- Without an expiry, a migration sends what a full-sync sends. -/
theorem buildValueFrame_eq {env : Env} {key : String} {v : Value} (hv : v.isEmpty = false) :
    ∃ e, Store.snapshotEntry env key v = some e ∧
      buildValueFrame env key v (-1) = snapshotEntryToResp e := by
  cases v <;> simp_all [Store.snapshotEntry, Value.isEmpty, buildValueFrame, snapshotEntryToResp]

namespace Store.SnapshotEntry

open ZSet (keepsScore keepsScore_of_zero)

/-- The name of the command. -/
def name : SnapshotEntry → String
  | .string _ _ => "SET"
  | .list _ _ => "RPUSH"
  | .hash _ _ => "HSET"
  | .set _ _ => "SADD"
  | .zset _ _ => "ZADD"

/-- The key of the snapshot. -/
def key : SnapshotEntry → String
  | .string key _ | .list key _ | .hash key _ | .set key _ | .zset key _ => key

/-- The arguments behind the key. -/
def elements : SnapshotEntry → List Frame
  | .string _ value => [.bulk (some value)]
  | .list _ items => bulkArgs items
  | .hash _ fields => fieldArgs fields
  | .set _ members => bulkArgs members
  | .zset _ members => scoredArgs members

/-- All snapshots are sent as a command with its key and elements. -/
theorem snapshotEntryToResp_eq (e : SnapshotEntry) : snapshotEntryToResp e =
    .array (some (.bulkStr e.name :: .bulkStr e.key :: e.elements)) := by
  cases e <;> rfl

theorem name_mem (e : SnapshotEntry) : e.name ∈ ["SET", "RPUSH", "HSET", "SADD", "ZADD"] := by
  cases e <;> simp [name]

theorem commandName_name (e : SnapshotEntry) : commandName (Utf8.toBytes e.name) = e.name := by
  have hall : ∀ n ∈ ["SET", "RPUSH", "HSET", "SADD", "ZADD"], commandName (Utf8.toBytes n) = n := by
    decide
  exact hall _ e.name_mem

theorem name_local (e : SnapshotEntry) : ¬ (e.name = "CLUSTER" ∨ e.name = "MIGRATE") := by
  have hall : ∀ n ∈ ["SET", "RPUSH", "HSET", "SADD", "ZADD"],
      ¬ (n = "CLUSTER" ∨ n = "MIGRATE") := by
    decide
  exact hall _ e.name_mem

/-- A score as it arrives. -/
def received (x : F64) : F64 := if x.isNaN then F64.nan else x

/-- What the command asks of the store. -/
def request : SnapshotEntry → Request
  | .string key value => .set key value none false false
  | .list key items => .push false key items
  | .hash key fields => .hset key fields
  | .set key members => .sadd key members
  | .zset key members => .zadd key {} (members.map fun p => .add (received p.2) p.1)

/-- The value that it creates. -/
def value : SnapshotEntry → Value
  | .string _ b => .string b
  | .list _ items => .list (items.foldl RedisList.pushBack .new)
  | .hash _ fields => .hash (fields.foldl (fun h p => (h.hset p.1 p.2).2) .new)
  | .set _ members => .set (RedisSet.new.sadd members).2
  | .zset _ members => .zset (ZSet.new.zaddAll {} (members.map fun p => (received p.2, p.1)))

/-! ## Reading the command -/

theorem bulkAsStr_bulkStr (s : String) : bulkAsStr [.bulkStr s] 0 = some s :=
  bulkAsStr_of_getElem? rfl

theorem strArg_key (name key : String) (rest : List Frame) (cmd : String) :
    strArg (.bulkStr name :: .bulkStr key :: rest) 1 cmd = .ok key := by
  rw [strArg, bulkAsStr_of_getElem? rfl, need]

theorem bulksFrom_bulkArgs (f g : Frame) (items : List Bytes) :
    bulksFrom (f :: g :: bulkArgs items) 2 = items := by
  simp [bulksFrom, bulkArgs, List.filterMap_map, Function.comp_def, Frame.payload]

/-- The fields are read back in pairs. -/
theorem bulkPairs_fieldArgs (fields : List (Bytes × Bytes)) :
    bulkPairs (fieldArgs fields) = fields := by
  induction fields with
  | nil => rfl
  | cons p fields ih => simpa [fieldArgs, bulkPairs, Frame.payload] using ih

/-- A score is read back from its decimal text, a NaN without its sign. -/
theorem parse_display_received (x : F64) : F64.parse x.display = some (received x) := by
  cases hx : x.isNaN with
  | false => rw [F64.parse_display hx, received, hx]; rfl
  | true =>
    have hnan : x.display = "NaN" := by simp [F64.display, hx]
    rw [hnan, received, hx, if_pos rfl]
    decide

/-- The scored members are read back. -/
theorem zaddSteps_scoredArgs (members : List (Bytes × F64)) :
    zaddSteps (scoredArgs members) = members.map fun p => .add (received p.2) p.1 := by
  induction members with
  | nil => rfl
  | cons p members ih =>
    have hstep : zaddSteps (scoredArgs (p :: members)) =
        .add (received p.2) p.1 :: zaddSteps (scoredArgs members) := by
      simp [scoredArgs, zaddSteps, bulkAsStr_bulkStr, parse_display_received, Frame.payload]
    rw [hstep, ih, List.map_cons]

/-- A score is not taken for a flag. -/
theorem zaddFlags_scoredArgs (members : List (Bytes × F64)) :
    zaddFlags (scoredArgs members) {} = ({}, scoredArgs members) := by
  cases members with
  | nil => rfl
  | cons p members =>
    have hne (word : String) (hword : F64.parse word = none) : p.2.display ≠ word := by
      rintro rfl
      rw [parse_display_received] at hword
      cases hword
    have hnx := hne "NX" (by decide)
    have hxx := hne "XX" (by decide)
    have hgt := hne "GT" (by decide)
    have hlt := hne "LT" (by decide)
    have hch := hne "CH" (by decide)
    have hcons : scoredArgs (p :: members) =
        .bulkStr p.2.display :: .bulk (some p.1) :: scoredArgs members := rfl
    rw [hcons, zaddFlags, bulkAsStr_bulkStr]
    split <;> simp_all

/-- The entry of a collection has elements. -/
theorem elements_ne_nil {e : SnapshotEntry} {env : Env} {k : String} {v : Value}
    (h : snapshotEntry env k v = some e) : e.elements ≠ [] := by
  cases v with
  | string b =>
    obtain rfl : _ = e := by simpa [snapshotEntry] using h
    simp [elements]
  | list l =>
    obtain ⟨hl, rfl⟩ : ¬ l.isEmpty = true ∧ _ = e := by simpa [snapshotEntry] using h
    simpa [elements, bulkArgs, RedisList.isEmpty, RedisList.len_eq_zero] using hl
  | hash m =>
    obtain ⟨hm, rfl⟩ : ¬ m.isEmpty = true ∧ _ = e := by simpa [snapshotEntry] using h
    have hne : m.allPairs env ≠ [] := by
      simpa [RedisHash.isEmpty, ← @RedisHash.allPairs_eq_nil env] using hm
    obtain ⟨p, ps, hps⟩ := List.exists_cons_of_ne_nil hne
    simp [elements, fieldArgs, hps]
  | set t =>
    obtain ⟨ht, rfl⟩ : ¬ t.isEmpty = true ∧ _ = e := by simpa [snapshotEntry] using h
    simpa [elements, bulkArgs, RedisSet.isEmpty, ← @RedisSet.members_eq_nil env] using ht
  | zset z =>
    obtain ⟨hz, rfl⟩ : ¬ z.isEmpty = true ∧ _ = e := by simpa [snapshotEntry] using h
    have hne : z.allWithScores ≠ [] := by
      rw [ne_eq, ← List.length_eq_zero_iff, ZSet.length_allWithScores]
      simpa [ZSet.isEmpty, ZSet.len, ExtTreeMap.isEmpty_eq_size_beq_zero] using hz
    obtain ⟨p, ps, hps⟩ := List.exists_cons_of_ne_nil hne
    simp [elements, scoredArgs, hps]

theorem length_fieldArgs (fields : List (Bytes × Bytes)) :
    (fieldArgs fields).length = 2 * fields.length := by
  simp [fieldArgs, List.length_flatMap, Nat.mul_comm]

theorem length_scoredArgs (members : List (Bytes × F64)) :
    (scoredArgs members).length = 2 * members.length := by
  simp [scoredArgs, List.length_flatMap, Nat.mul_comm]

theorem require_eq {b : Bool} (h : b = true) (cmd : String) : require b cmd = .ok () := by
  simp [require, h]

/-- A command with a key and bulk strings is read as its request. -/
theorem manyCommand_bulkArgs {items : List Bytes} (hne : items ≠ []) (cmd name key : String)
    (req : String → List Bytes → Request) :
    manyCommand cmd req (.bulkStr name :: .bulkStr key :: bulkArgs items) = .ok (req key items) := by
  have hlen := List.length_pos_iff.mpr hne
  have hreq : decide (3 ≤ (Frame.bulkStr name :: .bulkStr key :: bulkArgs items).length) = true := by
    simp [bulkArgs]
    omega
  rw [manyCommand, require_eq hreq, strArg_key, bulksFrom_bulkArgs]
  rfl

/-- `HSET` reads all fields of a snapshot. -/
theorem cmdHset_fieldArgs {fields : List (Bytes × Bytes)} (hne : fieldArgs fields ≠ [])
    (key : String) : cmdHset (.bulkStr "HSET" :: .bulkStr key :: fieldArgs fields) =
      .ok (.hset key fields) := by
  have hlen := length_fieldArgs fields
  have hpos := List.length_pos_iff.mpr hne
  have hreq : (decide (4 ≤ (Frame.bulkStr "HSET" :: .bulkStr key :: fieldArgs fields).length) &&
      decide (((Frame.bulkStr "HSET" :: .bulkStr key :: fieldArgs fields).length - 2) % 2 = 0)) =
        true := by
    simp
    omega
  rw [cmdHset, require_eq hreq, strArg_key, List.drop_succ_cons, List.drop_succ_cons,
    List.drop_zero, bulkPairs_fieldArgs]
  rfl

/-- `ZADD` reads all members of a snapshot. -/
theorem cmdZadd_scoredArgs {members : List (Bytes × F64)} (hne : scoredArgs members ≠ [])
    (key : String) : cmdZadd (.bulkStr "ZADD" :: .bulkStr key :: scoredArgs members) =
      .ok (.zadd key {} (members.map fun p => .add (received p.2) p.1)) := by
  have hlen := length_scoredArgs members
  have hpos := List.length_pos_iff.mpr hne
  have hreq : decide (4 ≤ (Frame.bulkStr "ZADD" :: .bulkStr key :: scoredArgs members).length) =
      true := by
    simp
    omega
  have hreq' : decide (2 ≤ (scoredArgs members).length) = true := by
    simp
    omega
  rw [cmdZadd, require_eq hreq, strArg_key, List.drop_succ_cons, List.drop_succ_cons,
    List.drop_zero, zaddFlags_scoredArgs, ← zaddSteps_scoredArgs]
  simp only [require_eq hreq']
  rfl

/-- The command is read as the request. -/
theorem readCommand_eq {e : SnapshotEntry} (he : e.elements ≠ []) (ctx : CommandContext) :
    readCommand ctx e.name (.bulkStr e.name :: .bulkStr e.key :: e.elements) = .ok e.request := by
  cases e with
  | string key value =>
    have htable : (commandTable ctx).lookup "SET" = some cmdSet := rfl
    simp only [readCommand, name, htable, cmdSet, SnapshotEntry.key, elements, strArg_key]
    rfl
  | list key items =>
    have htable : (commandTable ctx).lookup "RPUSH" = some cmdRpush := rfl
    rw [readCommand, name, htable]
    exact manyCommand_bulkArgs (by simpa [elements, bulkArgs] using he) _ _ _ _
  | set key members =>
    have htable : (commandTable ctx).lookup "SADD" = some cmdSadd := rfl
    rw [readCommand, name, htable]
    exact manyCommand_bulkArgs (by simpa [elements, bulkArgs] using he) _ _ _ _
  | hash key fields =>
    have htable : (commandTable ctx).lookup "HSET" = some cmdHset := rfl
    rw [readCommand, name, htable]
    exact cmdHset_fieldArgs he key
  | zset key members =>
    have htable : (commandTable ctx).lookup "ZADD" = some cmdZadd := rfl
    rw [readCommand, name, htable]
    exact cmdZadd_scoredArgs he key

/-! ## Running it -/

/-- The loop of `HSET` on a hash. -/
theorem hsetLoop_some {k : String} : ∀ (fields : List (Bytes × Bytes)) {s : Store} {e : Entry}
    {h : RedisHash}, s[k]? = some e → Kind.hash.view e.value = some h →
      (hsetLoop k fields s).2 = s.insert k { e with
        value := .hash (fields.foldl (fun h p => (h.hset p.1 p.2).2) h) }
  | [], s, e, h, hkey, hv => (insert_view hkey hv).symm
  | (f, w) :: fields, s, e, h, hkey, hv => by
    have hstep := hset_some hkey hv f w
    simp only [hsetLoop, hstep]
    rw [hsetLoop_some fields FinMap.getElem?_insert_self (Kind.hash.view_wrap _),
      FinMap.insert_insert]
    rfl

/-- Fields that are set at a missing key. -/
theorem hsetLoop_none {k : String} {s : Store} (hkey : s[k]? = none) {fields : List (Bytes × Bytes)}
    (hne : fields ≠ []) : (hsetLoop k fields s).2 = s.insert k
      ⟨.hash (fields.foldl (fun h p => (h.hset p.1 p.2).2) .new), none⟩ := by
  obtain ⟨⟨f, w⟩, rest, rfl⟩ := List.exists_cons_of_ne_nil hne
  have hstep : s.hset k f w = (.ok (RedisHash.new.hset f w).1,
      s.insert k ⟨Kind.hash.wrap (RedisHash.new.hset f w).2, none⟩) := upsert_none hkey
  simp only [hsetLoop, hstep]
  rw [hsetLoop_some rest FinMap.getElem?_insert_self (Kind.hash.view_wrap _), FinMap.insert_insert]
  rfl

theorem applied_map_add (members : List (Bytes × F64)) :
    ZaddStep.applied (members.map fun p => .add (received p.2) p.1) =
      members.map fun p => (received p.2, p.1) := by
  induction members with
  | nil => rfl
  | cons p members ih => rw [List.map_cons, List.map_cons, ZaddStep.applied, ih]

/-- Fields that are set at a key of another type. -/
theorem hsetLoop_wrong {k : String} {s : Store} {e : Entry} (hkey : s[k]? = some e)
    (hv : Kind.hash.view e.value = none) (fields : List (Bytes × Bytes)) :
    (hsetLoop k fields s).2 = s := by
  cases fields with
  | nil => rfl
  | cons p fields =>
    have hstep : s.hset k p.1 p.2 = (.error wrongType, s) := upsert_wrong hkey hv
    simp only [hsetLoop, hstep]

/-- What the command leaves at a key that held `old`. -/
def valueOver : SnapshotEntry → Option Value → Value
  | .string _ b, _ => .string b
  | .list _ items, old => overwrite .list .new (fun l => items.foldl RedisList.pushBack l) old
  | .hash _ fields, old =>
    overwrite .hash .new (fun h => fields.foldl (fun h p => (h.hset p.1 p.2).2) h) old
  | .set _ members, old => overwrite .set .new (fun t => (t.sadd members).2) old
  | .zset _ members, old =>
    overwrite .zset .new (fun z => z.zaddAll {} (members.map fun p => (received p.2, p.1))) old

/-- Only `SET` ends the expiry of the key. -/
def expiryOver : SnapshotEntry → Option Entry → Option ℕ
  | .string _ _, _ => none
  | _, old => old.bind Entry.expiresAt

/-- The command on any store. -/
theorem run_request_over {e : SnapshotEntry} (he : e.elements ≠ []) (s : Store)
    (ctx : CommandContext) (env : Env) : (e.request.run ctx env s).store =
      s.insert e.key ⟨e.valueOver (s[e.key]?.map Entry.value), e.expiryOver s[e.key]?⟩ := by
  cases e with
  | string k b => rfl
  | list k items =>
    rw [request, Request.run, Request.store_of]
    exact upsert_snd s
  | set k members =>
    rw [request, Request.run, Request.store_of]
    exact upsert_snd s
  | hash k fields =>
    rw [request, Request.run, Request.store_of]
    cases hkey : s[k]? with
    | none =>
      have hne : fields ≠ [] := fun hnil => he (by simp [elements, hnil, fieldArgs])
      simp only [key, hkey]
      exact hsetLoop_none hkey hne
    | some en =>
      simp only [key, hkey, Option.map_some]
      cases hv : Kind.hash.view en.value with
      | some h =>
        rw [valueOver, over_view hv]
        exact hsetLoop_some fields hkey hv
      | none =>
        rw [valueOver, over_wrong hv, hsetLoop_wrong hkey hv]
        exact (FinMap.insert_of_getElem? hkey).symm
  | zset k members =>
    have happ := applied_map_add members
    rw [request, Request.run, Request.store_of]
    cases hkey : s[k]? with
    | none =>
      have hne : members.map (fun p => (received p.2, p.1)) ≠ [] := by
        intro hnil
        exact he (by simp [elements, List.map_eq_nil_iff.mp hnil, scoredArgs])
      have hloop := (zaddLoop_none {} hkey (members.map fun p => .add (received p.2) p.1)).2.1
      rw [happ] at hloop
      simp only [key, hkey]
      exact hloop hne
    | some en =>
      simp only [key, hkey, Option.map_some]
      cases hv : Kind.zset.view en.value with
      | some z =>
        have hloop :=
          (zaddLoop_some {} (members.map fun p => .add (received p.2) p.1) hkey hv).1
        rw [happ] at hloop
        rw [valueOver, over_view hv]
        exact hloop
      | none =>
        rw [valueOver, over_wrong hv, zaddLoop_wrong {} hkey hv]
        exact (FinMap.insert_of_getElem? hkey).symm

/-- The command creates the key with its value. -/
theorem run_request {e : SnapshotEntry} (he : e.elements ≠ []) {s : Store} (hkey : s[e.key]? = none)
    (ctx : CommandContext) (env : Env) :
    (e.request.run ctx env s).store = s.insert e.key ⟨e.value, none⟩ := by
  rw [run_request_over he, hkey]
  cases e <;> rfl

/-! ## What it recreates -/

/-- The fields of a list are set over those of the hash. -/
theorem get_foldl_hset : ∀ (fields : List (Bytes × Bytes)) (h : RedisHash) (f : Bytes),
    (fields.map Prod.fst).Nodup → (fields.foldl (fun h p => (h.hset p.1 p.2).2) h).get f =
      ((fields.find? fun p => p.1 = f).map Prod.snd).or (h.get f)
  | [], _, _, _ => rfl
  | (g, w) :: fields, h, f, hnd => by
    rw [List.map_cons, List.nodup_cons] at hnd
    rw [List.foldl_cons, get_foldl_hset fields _ f hnd.2, RedisHash.get_hset]
    by_cases hg : g = f
    · have hnone : (fields.find? fun p => p.1 = f) = none := by
        rw [List.find?_eq_none]
        intro p hp heq
        exact hnd.1 (List.mem_map.mpr ⟨p, hp, (of_decide_eq_true heq).trans hg.symm⟩)
      simp [hg, hnone]
    · simp [hg]

/-- The score of a member after `ZADD` with the score `x`. -/
def rescored (old : Option F64) (x : F64) : Option F64 :=
  if x.isNaN then old
  else match old with
    | some y => if keepsScore y x then some y else some x
    | none => some x

/-- The score of a member after one pair that was received. -/
theorem scores_zadd_received (z : ZSet) (g m : Bytes) (x : F64) :
    (z.zadd (received x) g false false false false).2.scores[m]? =
      if g = m then rescored z.scores[m]? x else z.scores[m]? := by
  have hnan : F64.nan.isNaN = true := by decide
  unfold ZSet.zadd received rescored
  cases hx : x.isNaN with
  | true => simp [hnan]
  | false =>
    simp only [hx, Bool.false_eq_true, if_false]
    by_cases hm : g = m
    · subst hm
      cases hold : z.scores[g]? with
      | none => simp [ZSet.scores_put]
      | some y =>
        simp only [if_true]
        split
        · next hkeep => rw [hold, if_pos (show keepsScore y x = true from hkeep)]
        · next hkeep =>
          rw [ZSet.scores_put, if_pos rfl, if_neg (show ¬ keepsScore y x = true from hkeep)]
    · rw [if_neg hm]
      split
      · split
        · rfl
        · rw [ZSet.scores_put, if_neg hm]
      · rw [ZSet.scores_put, if_neg hm]

/-- The scores after the members of a list were added, each of them once. -/
theorem scores_zaddAll : ∀ (members : List (Bytes × F64)) (z : ZSet) (m : Bytes),
    (members.map Prod.fst).Nodup →
      (z.zaddAll {} (members.map fun p => (received p.2, p.1))).scores[m]? =
        match (members.find? fun p => p.1 = m).map Prod.snd with
        | some x => rescored z.scores[m]? x
        | none => z.scores[m]?
  | [], _, _, _ => rfl
  | (g, x) :: members, z, m, hnd => by
    rw [List.map_cons, List.nodup_cons] at hnd
    have hcons : z.zaddAll {} (((g, x) :: members).map fun p => (received p.2, p.1)) =
        (z.zadd (received x) g false false false false).2.zaddAll {}
          (members.map fun p => (received p.2, p.1)) := rfl
    rw [hcons, scores_zaddAll members _ m hnd.2, scores_zadd_received]
    by_cases hm : g = m
    · have hnone : (members.find? fun p => p.1 = m) = none := by
        rw [List.find?_eq_none]
        intro p hp heq
        exact hnd.1 (List.mem_map.mpr ⟨p, hp, (of_decide_eq_true heq).trans hm.symm⟩)
      simp [hm, hnone]
    · simp [hm]

/-- Scores arrive, except those that are not a number and a zero on a zero of the other
sign. -/
theorem rescored_eq_some_iff {old : Option F64} {x : F64} : rescored old x = some x ↔
    (x.isNaN = true → old = some x) ∧ ∀ y, old = some y → x.eq y = true → y = x := by
  unfold rescored
  cases hx : x.isNaN with
  | true =>
    simp only [if_true, true_implies, iff_self_and]
    intro _ y _ heq
    simp [F64.eq, hx] at heq
  | false =>
    simp only [Bool.false_eq_true, if_false, false_implies, true_and]
    cases old with
    | none => simp
    | some y =>
      simp only [Option.some.injEq, forall_eq']
      split
      · next hkeep =>
        have heq : x.eq y = true := by
          rw [keepsScore, Bool.and_eq_true] at hkeep
          exact hkeep.2
        simp [heq]
      · next hkeep =>
        refine iff_of_true rfl fun heq => ?_
        rcases F64.eq_or_zero_of_eq heq with h | ⟨hxz, hyz⟩
        · exact h.symm
        · exact absurd (keepsScore_of_zero hxz hyz) hkeep

/-- The elements of an entry, looked up. -/
theorem find?_allWithScores (z : ZSet) (m : Bytes) :
    (z.allWithScores.find? fun p => p.1 = m).map Prod.snd = z.scores[m]? := by
  ext x
  rw [find?_eq_some_iff z.nodup_allWithScores, ZSet.mem_allWithScores]

theorem find?_allPairs (env : Env) (h : RedisHash) (f : Bytes) :
    ((h.allPairs env).find? fun p => p.1 = f).map Prod.snd = h.get f := by
  ext w
  rw [find?_eq_some_iff (h.nodup_allPairs env), RedisHash.mem_allPairs]

/-- When received members leave exactly the sent set. -/
theorem zaddAll_eq_iff (z w : ZSet) :
    w.zaddAll {} (z.allWithScores.map fun p => (received p.2, p.1)) = z ↔ w.OverwrittenBy z := by
  have hscores := scores_zaddAll z.allWithScores w
  simp only [find?_allWithScores] at hscores
  constructor
  · intro heq m
    have hm := hscores m z.nodup_allWithScores
    rw [heq] at hm
    cases hz : z.scores[m]? with
    | none =>
      rw [hz] at hm
      exact hm.symm
    | some x =>
      rw [hz] at hm
      exact rescored_eq_some_iff.mp hm.symm
  · intro hover
    refine ZSet.ext_scores (ExtTreeMap.ext_getElem? fun m => ?_)
    have hm := hover m
    rw [hscores m z.nodup_allWithScores]
    cases hz : z.scores[m]? with
    | none =>
      rw [hz] at hm
      exact hm
    | some x =>
      rw [hz] at hm
      exact rescored_eq_some_iff.mpr hm

/-- Received fields leave exactly the sent hash if there were no others. -/
theorem foldl_hset_get_eq_iff (env : Env) (h g : RedisHash) :
    ((h.allPairs env).foldl (fun h p => (h.hset p.1 p.2).2) g).get = h.get ↔
      ∀ f, (g.get f).isSome = true → (h.get f).isSome = true := by
  have hget (f : Bytes) : ((h.allPairs env).foldl (fun h p => (h.hset p.1 p.2).2) g).get f =
      (h.get f).or (g.get f) := by
    rw [get_foldl_hset _ _ _ (h.nodup_allPairs env), find?_allPairs]
  rw [funext_iff]
  refine forall_congr' fun f => ?_
  rw [hget]
  cases h.get f <;> cases g.get f <;> simp

/-- Received members leave exactly the sent set if there were no others. -/
theorem contains_sadd_eq_iff (env : Env) (t u : RedisSet) :
    (u.sadd (t.members env)).2.contains = t.contains ↔
      ∀ m, u.contains m = true → t.contains m = true := by
  rw [funext_iff]
  refine forall_congr' fun m => ?_
  rw [Bool.eq_iff_iff, RedisSet.contains_sadd, RedisSet.mem_members, or_iff_left_iff_imp]

/-- Sending a value to a key gives the key its contents exactly if it takes the old value
over. -/
theorem content_valueOver_eq_iff {env : Env} {k : String} {v : Value} {e : SnapshotEntry}
    (h : snapshotEntry env k v = some e) (old : Option Value) :
    (e.valueOver old).content = v.content ↔ v.TakesOver old := by
  cases v with
  | string b =>
    obtain rfl : _ = e := by simpa [snapshotEntry] using h
    simp [valueOver, Value.TakesOver]
  | list l =>
    obtain ⟨-, rfl⟩ : ¬ l.isEmpty = true ∧ _ = e := by simpa [snapshotEntry] using h
    cases old with
    | none => simp [valueOver, overwrite, Kind.list, Value.content, Value.TakesOver,
        RedisList.toVec_foldl_pushBack]
    | some v =>
      cases v with
      | list o => simp [valueOver, overwrite, Kind.list, Value.content, Value.TakesOver,
          RedisList.toVec_foldl_pushBack]
      | string | hash | set | zset =>
        simp [valueOver, overwrite, Kind.list, Value.content, Value.TakesOver]
  | hash m =>
    obtain ⟨-, rfl⟩ : ¬ m.isEmpty = true ∧ _ = e := by simpa [snapshotEntry] using h
    cases old with
    | none =>
      simp only [valueOver, overwrite, Kind.hash, Value.content, Value.TakesOver, Content.hash.injEq,
        foldl_hset_get_eq_iff, iff_true]
      simp
    | some v =>
      cases v with
      | hash o =>
        simp only [valueOver, overwrite, Kind.hash, Value.content, Value.TakesOver, Content.hash.injEq,
          foldl_hset_get_eq_iff]
      | string | list | set | zset =>
        simp [valueOver, overwrite, Kind.hash, Value.content, Value.TakesOver]
  | set t =>
    obtain ⟨-, rfl⟩ : ¬ t.isEmpty = true ∧ _ = e := by simpa [snapshotEntry] using h
    cases old with
    | none =>
      simp only [valueOver, overwrite, Kind.set, Value.content, Value.TakesOver, Content.set.injEq,
        contains_sadd_eq_iff, iff_true]
      simp
    | some v =>
      cases v with
      | set o =>
        simp only [valueOver, overwrite, Kind.set, Value.content, Value.TakesOver, Content.set.injEq,
          contains_sadd_eq_iff]
      | string | list | hash | zset =>
        simp [valueOver, overwrite, Kind.set, Value.content, Value.TakesOver]
  | zset z =>
    obtain ⟨-, rfl⟩ : ¬ z.isEmpty = true ∧ _ = e := by simpa [snapshotEntry] using h
    cases old with
    | none =>
      simp only [valueOver, overwrite, Kind.zset, Value.content, Value.TakesOver, Content.zset.injEq,
        zaddAll_eq_iff]
    | some v =>
      cases v with
      | zset o =>
        simp only [valueOver, overwrite, Kind.zset, Value.content, Value.TakesOver, Content.zset.injEq,
          zaddAll_eq_iff]
      | string | list | hash | set =>
        simp [valueOver, overwrite, Kind.zset, Value.content, Value.TakesOver]

/-- A missing key is taken over unless a score is not a number. -/
theorem takesOver_none {v : Value} : v.TakesOver none ↔ ¬ v.HasNaN := by
  cases v with
  | zset z =>
    simp only [Value.TakesOver, Value.HasNaN, ZSet.OverwrittenBy, not_exists, not_and]
    refine forall_congr' fun m => ?_
    cases hz : z.scores[m]? with
    | none => simp [ZSet.new]
    | some x => simp [ZSet.new]
  | _ => simp [Value.TakesOver, Value.HasNaN]

/-- The command recreates the contents of the value it was made from, unless a score is not
a number. -/
theorem content_value_eq_iff {env : Env} {k : String} {v : Value} {e : SnapshotEntry}
    (h : snapshotEntry env k v = some e) : e.value.content = v.content ↔ ¬ v.HasNaN := by
  rw [← takesOver_none, ← content_valueOver_eq_iff h none]
  cases e <;> rfl

theorem key_of_snapshotEntry {env : Env} {k : String} {v : Value} {e : SnapshotEntry}
    (h : snapshotEntry env k v = some e) : e.key = k := by
  cases v with
  | string b =>
    obtain rfl : _ = e := by simpa [snapshotEntry] using h
    rfl
  | list l | hash l | set l | zset l =>
    obtain ⟨-, rfl⟩ : ¬ l.isEmpty = true ∧ _ = e := by simpa [snapshotEntry] using h
    rfl

end Store.SnapshotEntry

end LoonyRedis
