import LoonyRedis.Aof
import LoonyRedis.Determinism
import LoonyRedis.Unchanged

/-!
# Replaying the records of a command

A handler that logs rebuilds its command from what it has read, separately from what it
does. `recovered` is the store after a start that replays the records of one command on the
store it was run on. `records_faithful_iff` says for which commands that gives the contents
which the command left : a negative operand of `INCRBY` and `DECRBY` loses its sign, `ZADD`
loses its pairs, and a push of nothing is not read back.
-/

namespace LoonyRedis

open Std

/-! ## Counters -/

/-- The records of `INCR` and `DECR`, and of `INCRBY` and `DECRBY` with the operand `n`. -/
inductive CounterRecord (args : List Frame) (key : String) (delta : Text.I64) :
    Record → Prop where
  | unit (up : Bool) (hargs : bulkAsI64 args 2 = none)
      (hdelta : delta = Text.wrap (if up then 1 else -1)) : CounterRecord args key delta
        [Utf8.toBytes (if up then "INCR" else "DECR"), Utf8.toBytes key]
  | operand (up : Bool) (n : Text.I64) (hargs : bulkAsI64 args 2 = some n)
      (hdelta : delta = Text.wrap (n.1 * if up then 1 else -1)) : CounterRecord args key delta
        [Utf8.toBytes (if up then "INCRBY" else "DECRBY"), Utf8.toBytes key,
          Utf8.toBytes (toString (Text.wrap (if delta.1 < 0 then -delta.1 else delta.1)).1)]

namespace Request

/-- The record that comes with a counter is one of the four. -/
def RecordsCounter (args : List Frame) : Request → Prop
  | incrby key delta record => CounterRecord args key delta record
  | _ => True

end Request

section Readings

open Reading

variable {args : List Frame}

theorem all_require {P : Request → Prop} {b : Bool} {cmd : String} {k : Unit → Reading}
    (h : b = true → All P (k ())) : All P (require b cmd >>= k) := by
  cases b with
  | false => trivial
  | true => exact h rfl

theorem all_cmdIncrby (up : Bool) :
    All (Request.RecordsCounter args) (cmdIncrby (Text.wrap (if up then 1 else -1)) args) := by
  refine all_require fun hlen => all_bind fun key => ?_
  have hnone : bulkAsI64 args 2 = none := by
    have hlen : args.length = 2 := of_decide_eq_true hlen
    simp [bulkAsI64, bulkBytes, hlen]
  cases up with
  | true => exact CounterRecord.unit true hnone rfl
  | false => exact CounterRecord.unit false hnone rfl

theorem all_cmdIncrbyBy (up : Bool) :
    All (Request.RecordsCounter args) (cmdIncrbyBy (if up then 1 else -1) args) := by
  refine all_bind fun _ => all_bind fun key => ?_
  unfold intArg
  cases hn : bulkAsI64 args 2 with
  | none => trivial
  | some n =>
    cases up with
    | true => exact CounterRecord.operand true n hn rfl
    | false => exact CounterRecord.operand false n hn rfl

/-- Only the counters record a counter, with the operand they were given. -/
theorem recordsCounter_commandTable (ctx : CommandContext) :
    ∀ p ∈ commandTable ctx, All (Request.RecordsCounter args) (p.2 args) := by
  simp only [commandTable, List.forall_mem_cons]
  refine ⟨?_, ?_, ?_, ?_, ?_, ?_, ?_, ?_, all_debug (fun _ => trivial) fun _ => trivial, ?_, ?_, ?_,
    ?_, ?_, ?_, ?_, ?_, ?_, ?_, ?_, ?_, ?_, ?_, ?_, ?_, ?_, ?_, all_cmdIncrby true,
    all_cmdIncrby false, all_cmdIncrbyBy true, all_cmdIncrbyBy false, ?_⟩
  -- The other handlers read arguments and make a request of another kind.
  repeat' first
    | exact True.intro
    | exact fun _ h => absurd h List.not_mem_nil
    | refine ⟨?_, ?_⟩
    | refine all_bind fun _ => ?_

/-- A request that is read records its counter with the operand it was given. -/
theorem recordsCounter_of_readCommand {ctx : CommandContext} {name : String} {r : Request}
    (h : readCommand ctx name args = .ok r) : r.RecordsCounter args :=
  @of_readCommand (fun _ => Request.RecordsCounter args) _ _ (recordsCounter_commandTable ctx) _ _ h

end Readings

/-! ## What a counter holds -/

namespace Store

variable {b : Bytes} {d d' m r : Text.I64} {key : String} {s : Store}

/-- An integer that is written is read back. -/
theorem parseInt_toString (n : Text.I64) : parseInt (Utf8.toBytes (toString n.1)) = some n := by
  have htrim := Text.trim_of_no_whitespace (Text.isWhitespace_of_mem_toString n.1)
  rw [parseInt, Utf8.fromUtf8_toBytes, Option.bind_some, htrim, Text.parseI64_toString]

/-- Integers are told apart by their digits. -/
theorem toString_injective (h : Utf8.toBytes (toString r.1) = Utf8.toBytes (toString m.1)) :
    r = m := by
  have hparse := congrArg parseInt h
  rw [parseInt_toString, parseInt_toString, Option.some.injEq] at hparse
  exact hparse

/-- A sum that does not overflow is the sum. -/
theorem checkedAdd_eq_some (h : Text.checkedAdd m d = some r) : r.1 = m.1 + d.1 := by
  unfold Text.checkedAdd Text.fits at h
  split at h
  · rw [← Option.some.inj h]
  · cases h

/-- A string after an addition, if it holds a counter that can be added to. -/
def counted (d : Text.I64) (b : Bytes) : Bytes :=
  match parseInt b with
  | none => b
  | some n =>
    match Text.checkedAdd n d with
    | none => b
    | some r => Utf8.toBytes (toString r.1)

/-- Two different amounts count to different values. -/
theorem counted_ne (hm : parseInt b = some m) (hr : Text.checkedAdd m d = some r) (hne : d ≠ d')
    (hzero : d.1 ≠ 0) : counted d' b ≠ counted d b := by
  have hsum := checkedAdd_eq_some hr
  simp only [counted, hm, hr]
  intro heq
  split at heq
  · have hparse := parseInt_toString r
    rw [← heq, hm, Option.some.injEq] at hparse
    rw [hparse] at hsum
    omega
  · next r' hr' =>
    have hsum' := checkedAdd_eq_some hr'
    rw [toString_injective heq] at hsum'
    exact hne (Subtype.ext (by omega))

/-- A counter leaves the counted value and the old expiry. -/
theorem incrby_snd (s : Store) : (s.incrby key d).2 = s.insert key
    ⟨overwrite .string (Utf8.toBytes "0") (counted d) (s[key]?.map Entry.value),
      s[key]?.bind Entry.expiresAt⟩ := by
  refine (upsert_snd s).trans ?_
  congr 3
  ext b : 1
  simp only [counted]
  cases parseInt b with
  | none => rfl
  | some n =>
    simp only
    cases Text.checkedAdd n d <;> rfl

/-- Different additions leave different counters, unless the first one adds nothing. -/
theorem incrby_contents_ne (hok : ∃ n, (s.incrby key d).1 = .ok n) (hne : d ≠ d')
    (hzero : d.1 ≠ 0) : (s.incrby key d').2.contents ≠ (s.incrby key d).2.contents := by
  obtain ⟨n, hn⟩ := hok
  intro heq
  have hkey := congrFun heq key
  simp only [incrby_snd, contents_insert, if_true, Option.some.injEq] at hkey
  cases hs : s[key]? with
  | none =>
    obtain ⟨z, hz, hadd⟩ := checkedAdd_zero d
    have hne := counted_ne (parseInt_zero.trans hz) hadd hne hzero
    simp only [hs, Option.map_none, overwrite, Kind.string, Value.content,
      Content.string.injEq] at hkey
    exact hne hkey
  | some e =>
    cases hv : Kind.string.view e.value with
    | none =>
      rw [incrby, upsert_wrong hs hv] at hn
      cases hn
    | some b =>
      rw [incrby, upsert_some hs hv] at hn
      rw [hs, Option.map_some, over_view hv, over_view hv] at hkey
      replace hkey : counted d' b = counted d b := Content.string.inj hkey
      cases hm : parseInt b with
      | none =>
        simp only [hm] at hn
        cases hn
      | some m =>
        cases hr : Text.checkedAdd m d with
        | none =>
          simp only [hm, hr] at hn
          cases hn
        | some r => exact counted_ne hm hr hne hzero hkey

end Store

/-! ## Reading a record -/

section Records

variable (ctx : CommandContext)

/-- The commands that records name. -/
def recordNames : List String :=
  ["SET", "DEL", "APPEND", "INCR", "DECR", "INCRBY", "DECRBY", "LPUSH", "RPUSH", "HSET", "SADD",
    "ZADD"]

/-- The names of records are upper-case words of local commands. -/
theorem recordNames_local : ∀ name ∈ recordNames, commandName (Utf8.toBytes name) = name ∧
    ¬ (name = "CLUSTER" ∨ name = "MIGRATE") := by
  decide +kernel

variable {ctx} in
/-- In a replay a record goes to the handler that it names. -/
theorem execute_record (hreplay : ctx.isReplicaReplay = true) {name : String}
    (hname : name ∈ recordNames) (elsewhere : Route → Store → Outcome) (env : Env)
    (parts : List Bytes) (s : Store) :
    execute ctx elsewhere env (.bulks (Utf8.toBytes name :: parts)) s =
      dispatch ctx env name (.bulkStr name :: bulkArgs parts) s := by
  obtain ⟨hcmd, hlocal⟩ := recordNames_local name hname
  have hroute : route ctx (.bulks (Utf8.toBytes name :: parts)) =
      .dispatch name (.bulkStr name :: bulkArgs parts) := by
    have hbytes : bulkBytes (.bulkStr name :: bulkArgs parts) 0 = some (Utf8.toBytes name) := rfl
    have hframe : Frame.bulks (Utf8.toBytes name :: parts) =
        .array (some (.bulkStr name :: bulkArgs parts)) := rfl
    rw [hframe, route]
    · simp only [hbytes, hcmd, routeCommand, routeHere, hreplay, if_neg hlocal]
      simp
    · exact List.cons_ne_nil _ _
  rw [execute, hroute]

open Store.SnapshotEntry

theorem read_set (key : String) (val : Bytes) :
    readCommand ctx "SET" (.bulkStr "SET" :: bulkArgs [Utf8.toBytes key, val]) =
      .ok (.set key val none false false) :=
  @readCommand_eq (.string key val) (List.cons_ne_nil _ _) ctx

theorem read_hset (key : String) (field val : Bytes) :
    readCommand ctx "HSET" (.bulkStr "HSET" :: bulkArgs [Utf8.toBytes key, field, val]) =
      .ok (.hset key [(field, val)]) :=
  @readCommand_eq (.hash key [(field, val)]) (List.cons_ne_nil _ _) ctx

theorem read_sadd (key : String) {members : List Bytes} (hne : members ≠ []) :
    readCommand ctx "SADD" (.bulkStr "SADD" :: bulkArgs (Utf8.toBytes key :: members)) =
      .ok (.sadd key members) :=
  @readCommand_eq (.set key members) (by simpa [elements, bulkArgs] using hne) ctx

theorem read_push (left : Bool) (key : String) {values : List Bytes} (hne : values ≠ []) :
    readCommand ctx (if left then "LPUSH" else "RPUSH") (.bulkStr (if left then "LPUSH" else "RPUSH")
      :: bulkArgs (Utf8.toBytes key :: values)) = .ok (.push left key values) := by
  cases left with
  | true =>
    have htable : (commandTable ctx).lookup "LPUSH" = some cmdLpush := rfl
    simp only [readCommand, if_true, htable]
    exact manyCommand_bulkArgs hne _ _ _ _
  | false => exact @readCommand_eq (.list key values) (by simpa [elements, bulkArgs] using hne) ctx

theorem read_del {ks : List String} (hne : ks ≠ []) :
    readCommand ctx "DEL" (.bulkStr "DEL" :: bulkArgs (ks.map Utf8.toBytes)) = .ok (.del ks) := by
  have htable : (commandTable ctx).lookup "DEL" = some cmdDel := rfl
  have hlen := List.length_pos_iff.mpr hne
  have hreq : decide (2 ≤ (Frame.bulkStr "DEL" :: bulkArgs (ks.map Utf8.toBytes)).length) = true := by
    simp [bulkArgs]
    omega
  have hkeys : multiKeySetArgs (.bulkStr "DEL" :: bulkArgs (ks.map Utf8.toBytes)) 1 = ks := by
    simp [multiKeySetArgs, bulksFrom, bulkArgs, List.filterMap_map, Function.comp_def,
      Frame.payload, Utf8.lossy_toBytes]
  simp only [readCommand, htable, cmdDel, require_eq hreq, hkeys]
  rfl

theorem read_append (key : String) (suffix : Bytes) :
    readCommand ctx "APPEND" (.bulkStr "APPEND" :: bulkArgs [Utf8.toBytes key, suffix]) =
      .ok (.append key suffix) := by
  have htable : (commandTable ctx).lookup "APPEND" = some cmdAppend := rfl
  have hkey := strArg_key "APPEND" key [.bulk (some suffix)] "append"
  simp only [readCommand, htable, cmdAppend, bulkArgs, List.map_cons, List.map_nil]
  simp only [Frame.bulkStr] at hkey ⊢
  rw [hkey]
  rfl

theorem bulkAsI64_toString (f g : Frame) (n : Text.I64) :
    bulkAsI64 [f, g, .bulk (some (Utf8.toBytes (toString n.1)))] 2 = some n := by
  have htrim := Text.trim_of_no_whitespace (Text.isWhitespace_of_mem_toString n.1)
  simp [bulkAsI64, bulkBytes, Frame.payload, Utf8.lossy_toBytes, -Int.toString_eq_repr, htrim,
    Text.parseI64_toString]

theorem cmdIncrby_record (delta : Text.I64) (name key : String) : ∃ record,
    cmdIncrby delta (.bulkStr name :: bulkArgs [Utf8.toBytes key]) =
      .ok (.incrby key delta record) := by
  have hkey := strArg_key name key [] "incr"
  refine ⟨[Utf8.toBytes (if 0 < delta.1 then "INCR" else "DECR"), Utf8.toBytes key], ?_⟩
  simp only [cmdIncrby, bulkArgs, List.map_cons, List.map_nil]
  simp only [Frame.bulkStr] at hkey ⊢
  rw [hkey]
  rfl

theorem cmdIncrbyBy_record (sign : ℤ) (name key : String) (n : Text.I64) : ∃ record,
    cmdIncrbyBy sign (.bulkStr name :: bulkArgs [Utf8.toBytes key, Utf8.toBytes (toString n.1)]) =
      .ok (.incrby key (Text.wrap (n.1 * sign)) record) := by
  have hkey := strArg_key name key [.bulk (some (Utf8.toBytes (toString n.1)))] "incrby"
  refine ⟨[Utf8.toBytes (if 0 < sign then "INCRBY" else "DECRBY"), Utf8.toBytes key,
    Utf8.toBytes (toString (Text.wrap (if (Text.wrap (n.1 * sign)).1 < 0 then
      -(Text.wrap (n.1 * sign)).1 else (Text.wrap (n.1 * sign)).1)).1)], ?_⟩
  simp only [cmdIncrbyBy, bulkArgs, List.map_cons, List.map_nil]
  simp only [Frame.bulkStr] at hkey ⊢
  rw [hkey, intArg, bulkAsI64_toString]
  rfl

/-- A counter by one is read back from its record. -/
theorem read_unit (up : Bool) (key : String) : ∃ record,
    readCommand ctx (if up then "INCR" else "DECR")
      (.bulkStr (if up then "INCR" else "DECR") :: bulkArgs [Utf8.toBytes key]) =
    .ok (.incrby key (Text.wrap (if up then 1 else -1)) record) := by
  cases up with
  | true => exact cmdIncrby_record (Text.wrap 1) "INCR" key
  | false => exact cmdIncrby_record (Text.wrap (-1)) "DECR" key

/-- A counter by an operand is read back from its record. -/
theorem read_operand (up : Bool) (key : String) (n : Text.I64) : ∃ record,
    readCommand ctx (if up then "INCRBY" else "DECRBY")
      (.bulkStr (if up then "INCRBY" else "DECRBY") ::
        bulkArgs [Utf8.toBytes key, Utf8.toBytes (toString n.1)]) =
    .ok (.incrby key (Text.wrap (n.1 * if up then 1 else -1)) record) := by
  cases up with
  | true => exact cmdIncrbyBy_record 1 "INCRBY" key n
  | false => exact cmdIncrbyBy_record (-1) "DECRBY" key n

/-- A push of nothing and the record of `ZADD` have too few arguments. -/
theorem read_short {name : String} (hname : name ∈ ["LPUSH", "RPUSH", "ZADD"]) (key : String) :
    ∃ f, readCommand ctx name (.bulkStr name :: bulkArgs [Utf8.toBytes key]) = .error f := by
  simp only [List.mem_cons, List.not_mem_nil, or_false] at hname
  rcases hname with rfl | rfl | rfl
  · exact ⟨wrongNumArgs "lpush", rfl⟩
  · exact ⟨wrongNumArgs "rpush", rfl⟩
  · exact ⟨wrongNumArgs "zadd", rfl⟩

end Records

/-! ## Replaying the records -/

section Replaying

variable {ctx ctx' : CommandContext} {elsewhere : Route → Store → Outcome} {env : Env}
  {envAt : ℕ → Env} {s : Store}

/-- The store after a start that replays the records `log` on `s`. -/
def recovered (ctx : CommandContext) (elsewhere : Route → Store → Outcome) (envAt : ℕ → Env)
    (log : List Record) (s : Store) : Store :=
  applyLog ctx elsewhere envAt 0 (loadFrames (writeResps log)) s

/-- A record that can be read is replayed as its request. -/
theorem execute_read (hreplay : ctx.isReplicaReplay = true) {name : String}
    (hname : name ∈ recordNames) {parts : List Bytes} {r : Request}
    (hread : readCommand ctx name (.bulkStr name :: bulkArgs parts) = .ok r) :
    (execute ctx elsewhere env (.bulks (Utf8.toBytes name :: parts)) s).store =
      (r.run ctx env s).store := by
  rw [execute_record hreplay hname, dispatch, hread]

/-- A record that cannot be read is replayed as nothing. -/
theorem execute_unread (hreplay : ctx.isReplicaReplay = true) {name : String}
    (hname : name ∈ recordNames) {parts : List Bytes}
    (hread : ∃ f, readCommand ctx name (.bulkStr name :: bulkArgs parts) = .error f) :
    (execute ctx elsewhere env (.bulks (Utf8.toBytes name :: parts)) s).store = s := by
  obtain ⟨f, hf⟩ := hread
  rw [execute_record hreplay hname, dispatch, hf]

/-- The record of a `SET` sets its value without an expiry. -/
theorem execute_set (hreplay : ctx.isReplicaReplay = true) (key : String) (val : Bytes) :
    (execute ctx elsewhere env (.bulks [Utf8.toBytes "SET", Utf8.toBytes key, val]) s).store =
      s.set env.now key (.string val) none := by
  rw [execute_read hreplay (by simp [recordNames]) (read_set ctx key val)]
  rfl

/-- The record of an `HSET` sets its field. -/
theorem execute_hset (hreplay : ctx.isReplicaReplay = true) (key : String) (field val : Bytes) :
    (execute ctx elsewhere env (.bulks [Utf8.toBytes "HSET", Utf8.toBytes key, field, val]) s).store
      = (s.hset key field val).2 := by
  rw [execute_read hreplay (by simp [recordNames]) (read_hset ctx key field val)]
  simp only [Request.run, Request.store_of, hsetLoop]
  split <;> simp_all

/-- Contents do not tell the expiry that is set. -/
theorem contents_set (now now' : ℕ) (key : String) (v : Value) (ttl ttl' : Option ℕ) :
    (s.set now key v ttl).contents = (s.set now' key v ttl').contents := by
  rw [Store.set, Store.set, Store.contents_insert, Store.contents_insert]

/-- The records of an `MSET` are replayed as the sets one by one. -/
theorem replay_mset (hreplay : ctx.isReplicaReplay = true) (now : ℕ) :
    ∀ (pairs : List (String × Bytes)) (i : ℕ) (s : Store),
      applyLog ctx elsewhere envAt i
        (pairs.map fun p => .bulks [Utf8.toBytes "SET", Utf8.toBytes p.1, p.2]) s =
      msetLoop now pairs s
  | [], _, _ => rfl
  | p :: pairs, i, s => by
    rw [List.map_cons, applyLog, execute_set hreplay, replay_mset hreplay now pairs]
    rfl

/-- The records of an `HSET` are replayed as the fields one by one. -/
theorem replay_hset (hreplay : ctx.isReplicaReplay = true) (key : String) :
    ∀ (pairs : List (Bytes × Bytes)) (i : ℕ) (s : Store), (∃ n, (hsetLoop key pairs s).1 = .ok n) →
      applyLog ctx elsewhere envAt i
        (pairs.map fun p => .bulks [Utf8.toBytes "HSET", Utf8.toBytes key, p.1, p.2]) s =
      (hsetLoop key pairs s).2
  | [], _, _, _ => rfl
  | (f, v) :: pairs, i, s, ⟨n, hok⟩ => by
    rw [List.map_cons, applyLog, execute_hset hreplay]
    cases hstep : s.hset key f v with
    | mk r s' =>
      simp only [hsetLoop, hstep] at hok ⊢
      cases r with
      | error e => cases hok
      | ok m =>
        refine replay_hset hreplay key pairs (i + 1) s' ?_
        cases hrest : (hsetLoop key pairs s').1 with
        | ok k => exact ⟨k, rfl⟩
        | error e =>
          simp only [hrest] at hok
          cases hok

end Replaying

/-! ## Commands -/

namespace Request

/-- The records of a request give what the request left : the operand is not negative, or
the least integer, something is pushed, or the key is there, and the pairs of `ZADD` leave a
sorted set as it is. -/
def Faithful (args : List Frame) (s : Store) : Request → Prop
  | incrby _ _ _ => ∀ n, bulkAsI64 args 2 = some n → n.1 < 0 → n.1 = Text.i64Min
  | push _ key values => values ≠ [] ∨ s[key]? ≠ none
  | zadd key flags steps => s[key]? ≠ none ∧
      s.IfHeld .zset key fun z => z.KeepsScores flags (ZaddStep.applied steps)
  | _ => True

variable {ctx ctx' : CommandContext} {elsewhere : Route → Store → Outcome} {env : Env}
  {envAt : ℕ → Env} {s : Store} {args : List Frame}

/-- What a request logs, if the method call succeeds. -/
theorem log_of_ne_nil {β : Type} {r : Except String β × Store} {fmt : β → Frame}
    {log : β → List Record} (h : (Outcome.of r fmt log).log ≠ []) :
    ∃ b, r.1 = .ok b ∧ (Outcome.of r fmt log).log = log b := by
  unfold Outcome.of at h ⊢
  cases hr : r.1 with
  | ok b => exact ⟨b, rfl, rfl⟩
  | error e =>
    rw [hr] at h
    exact absurd rfl h

/-- Without a pair nothing is counted. -/
theorem zaddLoop_of_applied_nil {key : String} {flags : ZaddFlags} {n : ℕ × ℕ} :
    ∀ {steps : List ZaddStep}, ZaddStep.applied steps = [] →
      (zaddLoop key flags steps s).1 = .ok n → n = (0, 0)
  | [], _, h => (Except.ok.inj h).symm
  | .skip :: steps, hnil, h => @zaddLoop_of_applied_nil key flags n steps hnil h
  | .bad :: _, _, h => by cases h
  | .add _ _ :: _, hnil, _ => by cases hnil

/-- The addition that the record of `INCRBY` or `DECRBY` asks for. -/
theorem replayed_delta_eq_iff {up : Bool} {n delta : Text.I64}
    (hdelta : delta = Text.wrap (n.1 * if up then 1 else -1)) :
    Text.wrap ((Text.wrap (if delta.1 < 0 then -delta.1 else delta.1)).1 * if up then 1 else -1) =
      delta ↔ (n.1 < 0 → n.1 = Text.i64Min) := by
  have hmin : Text.i64Min = -2 ^ 63 := rfl
  have hmax : Text.i64Max = 2 ^ 63 - 1 := rfl
  have hn := n.2
  by_cases hleast : n.1 = Text.i64Min
  · refine iff_of_true ?_ fun _ => hleast
    rw [hdelta, hleast]
    cases up <;> decide
  · -- Nothing wraps, and the record has the magnitude of the operand.
    have hsign : (if up then (1 : ℤ) else -1) = 1 ∨ (if up then (1 : ℤ) else -1) = -1 := by
      cases up <;> simp
    generalize (if up then (1 : ℤ) else -1) = sign at hsign hdelta ⊢
    have hwrap {x : ℤ} (hx : -n.1 = x ∨ n.1 = x) : (Text.wrap x).1 = x :=
      Text.wrap_of_fits (by omega)
    have hdelta : delta.1 = n.1 * sign := by
      rw [hdelta]
      exact hwrap (by rcases hsign with rfl | rfl <;> omega)
    have hmag : (Text.wrap (if delta.1 < 0 then -delta.1 else delta.1)).1 =
        if delta.1 < 0 then -delta.1 else delta.1 :=
      hwrap (by rcases hsign with rfl | rfl <;> split <;> omega)
    rw [Subtype.ext_iff, hmag, hwrap (by rcases hsign with rfl | rfl <;> split <;> omega), hdelta]
    rcases hsign with rfl | rfl <;> split <;> omega

/-- When the records of a request are replayed to the contents it left. -/
theorem faithful_iff (hreplay : ctx'.isReplicaReplay = true) (hs : s.NoExpiry) {r : Request}
    (hcounter : r.RecordsCounter args) (hlog : (r.run ctx env s).log ≠ []) :
    (applyLog ctx' elsewhere envAt 0 ((r.run ctx env s).log.map Frame.bulks) s).contents =
      (r.run ctx env s).store.contents ↔ r.Faithful args s := by
  cases r with
  | del ks =>
    refine iff_of_true ?_ trivial
    have hpos : 0 < (s.del ks).1 := by
      by_contra hzero
      simp [run, hzero] at hlog
    have hne : ks ≠ [] := by
      rintro rfl
      exact absurd hpos (lt_irrefl 0)
    simp only [run, hpos, if_true, List.map_cons, List.map_nil, applyLog]
    rw [execute_read hreplay (by simp [recordNames]) (read_del ctx' hne)]
    rfl
  | set key val ttl nx xx =>
    refine iff_of_true ?_ trivial
    simp only [run] at hlog ⊢
    split at hlog
    · exact absurd rfl hlog
    · next hnx =>
      split at hlog
      · exact absurd rfl hlog
      · next hxx =>
        simp only [if_neg hnx, if_neg hxx, List.map_cons, List.map_nil, applyLog,
          execute_set hreplay]
        exact contents_set _ _ key _ _ _
  | mset pairs =>
    refine iff_of_true ?_ trivial
    simp only [run, List.map_map]
    exact congrArg Store.contents (replay_mset hreplay env.now pairs 0 s)
  | append key suffix =>
    refine iff_of_true ?_ trivial
    obtain ⟨n, -, hrec⟩ := log_of_ne_nil hlog
    simp only [run] at hrec ⊢
    rw [hrec, store_of]
    simp only [List.map_cons, List.map_nil, applyLog]
    rw [execute_read hreplay (by simp [recordNames]) (read_append ctx' key suffix), run, store_of]
  | incrby key delta record =>
    obtain ⟨n, hok, hrec⟩ := log_of_ne_nil hlog
    simp only [run] at hrec ⊢
    rw [hrec, store_of]
    simp only [List.map_cons, List.map_nil, applyLog]
    cases hcounter with
    | unit up hargs hdelta =>
      obtain ⟨record, hread⟩ := read_unit ctx' up key
      rw [execute_read hreplay (by cases up <;> simp [recordNames]) hread, run, store_of, hdelta]
      refine iff_of_true rfl fun n hn => ?_
      rw [hargs] at hn
      cases hn
    | operand up m hargs hdelta =>
      obtain ⟨record, hread⟩ := read_operand ctx' up key
        (Text.wrap (if delta.1 < 0 then -delta.1 else delta.1))
      rw [execute_read hreplay (by cases up <;> simp [recordNames]) hread, run, store_of]
      simp only [Faithful, hargs, Option.some.injEq, forall_eq']
      rw [← replayed_delta_eq_iff hdelta]
      refine ⟨fun heq => not_not.mp fun hne => ?_, fun h => by rw [h]⟩
      refine Store.incrby_contents_ne ⟨n, hok⟩ (Ne.symm hne) (fun hzero => hne ?_) heq
      obtain rfl : delta = Text.wrap 0 := Subtype.ext hzero
      cases up <;> decide
  | getset key val =>
    refine iff_of_true ?_ trivial
    simp only [run, Store.getset, Store.get_of_noExpiry hs, List.map_cons, List.map_nil, applyLog,
      execute_set hreplay]
    exact contents_set _ _ key _ _ _
  | setnx key val =>
    refine iff_of_true ?_ trivial
    simp only [run] at hlog ⊢
    split at hlog
    · exact absurd rfl hlog
    · next hfound =>
      simp only [if_neg hfound, List.map_cons, List.map_nil, applyLog, execute_set hreplay]
      exact contents_set _ _ key _ _ _
  | push left key values =>
    obtain ⟨n, hok, hrec⟩ := log_of_ne_nil hlog
    simp only [run] at hrec ⊢
    rw [hrec, store_of]
    simp only [List.map_cons, List.map_nil, applyLog]
    by_cases hne : values = []
    · subst hne
      have hname : (if left then "LPUSH" else "RPUSH") ∈ ["LPUSH", "RPUSH", "ZADD"] := by
        cases left <;> simp
      have hshort := read_short ctx' hname key
      rw [execute_unread hreplay (by cases left <;> simp [recordNames]) hshort, Faithful,
        or_iff_right fun h => h rfl, eq_comm]
      cases left with
      | true =>
        exact Store.contents_upsert_eq_iff.trans (and_iff_left fun e l _ _ => rfl)
      | false =>
        exact Store.contents_upsert_eq_iff.trans (and_iff_left fun e l _ _ => rfl)
    · rw [execute_read hreplay (by cases left <;> simp [recordNames])
        (read_push ctx' left key hne), run, store_of]
      exact iff_of_true rfl (Or.inl hne)
  | hset key pairs =>
    refine iff_of_true ?_ trivial
    obtain ⟨n, hok, hrec⟩ := log_of_ne_nil hlog
    simp only [run] at hrec ⊢
    rw [hrec, store_of, List.map_map]
    exact congrArg Store.contents (replay_hset hreplay key pairs 0 s ⟨n, hok⟩)
  | sadd key members =>
    refine iff_of_true ?_ trivial
    obtain ⟨n, hok, hrec⟩ := log_of_ne_nil hlog
    have hpos : 0 < n := by
      by_contra hzero
      rw [if_neg hzero] at hrec
      exact hlog hrec
    have hne : members ≠ [] := by
      rintro rfl
      rw [Store.sadd, Store.upsert] at hok
      split at hok
      · exact absurd (Except.ok.inj hok) (Nat.ne_of_lt hpos)
      · cases hok
    simp only [run] at hrec ⊢
    rw [hrec, store_of, if_pos hpos]
    simp only [List.map_cons, List.map_nil, applyLog]
    rw [execute_read hreplay (by simp [recordNames]) (read_sadd ctx' key hne), run, store_of]
  | zadd key flags steps =>
    obtain ⟨n, hok, hrec⟩ := log_of_ne_nil hlog
    have hpos : 0 < if flags.ch then n.2 else n.1 := by
      by_contra hzero
      rw [if_neg hzero] at hrec
      exact hlog hrec
    simp only [run] at hrec ⊢
    rw [hrec, store_of, if_pos hpos]
    simp only [List.map_cons, List.map_nil, applyLog]
    rw [execute_unread hreplay (by simp [recordNames]) (read_short ctx' (by simp) key), Faithful,
      eq_comm]
    cases hkey : s[key]? with
    | none =>
      have happlied : ZaddStep.applied steps ≠ [] := by
        intro hnil
        rw [zaddLoop_of_applied_nil hnil hok] at hpos
        simp at hpos
      rw [(zaddLoop_none flags hkey steps).2.1 happlied]
      exact iff_of_false (Store.contents_insert_of_none hkey) fun h => h.1 rfl
    | some e =>
      rw [and_iff_right (Option.some_ne_none e)]
      cases hv : Kind.zset.view e.value with
      | none =>
        rw [zaddLoop_wrong flags hkey hv]
        exact iff_of_true rfl (Store.ifHeld_of_wrong hkey hv)
      | some z =>
        rw [(zaddLoop_some flags steps hkey hv).1, Store.ifHeld_iff hkey hv,
          Store.contents_insert_wrap_eq_iff hkey hv, Kind.same_zset,
          ZSet.zaddAll_eq_iff_keepsScores]
  | _ => first
    | exact absurd rfl hlog
    | exact absurd log_change hlog

end Request

/-- If the handler of a command logs on a store without expiries, then a start that replays
the records on that store gives the contents which the command left, exactly if the request
is faithful. -/
theorem records_faithful_iff (ctx : CommandContext) (env : Env) (name : String)
    (args : List Frame) {s : Store} (hs : s.NoExpiry)
    (hlog : (dispatch ctx env name args s).log ≠ [])
    (hfit : ∀ r ∈ (dispatch ctx env name args s).log, Record.Fits r) {ctx' : CommandContext}
    (hreplay : ctx'.isReplicaReplay = true) (elsewhere : Route → Store → Outcome)
    (envAt : ℕ → Env) :
    (recovered ctx' elsewhere envAt (dispatch ctx env name args s).log s).contents =
        (dispatch ctx env name args s).store.contents ↔
      ∀ r, readCommand ctx name args = .ok r → r.Faithful args s := by
  rw [recovered, loadFrames_writeResps hfit]
  unfold dispatch at hlog ⊢
  cases hread : readCommand ctx name args with
  | error f =>
    rw [hread] at hlog
    exact absurd rfl hlog
  | ok r =>
    rw [hread] at hlog
    simp only [Except.ok.injEq, forall_eq']
    exact Request.faithful_iff hreplay hs (recordsCounter_of_readCommand hread) hlog

section Drifting

/-- A command on the empty store. -/
def dispatchEmpty (name : String) (rest : List String) : Outcome :=
  dispatch .standalone (.plain 0) name ((name :: rest).map .bulkStr) ∅

/-- A start that replays what the command logged. -/
def restart (o : Outcome) : Store :=
  recovered { CommandContext.standalone with isReplicaReplay := true } Deployment.nowhere
    (fun _ => .plain 0) o.log ∅

/-- After `INCRBY k -5` and a restart the counter is 5, and after `ZADD z 1 a` there is no
sorted set. -/
theorem replayed_otherwise : Store.NoExpiry ∅ ∧
    ((dispatchEmpty "INCRBY" ["k", "-5"]).log ≠ [] ∧
      (restart (dispatchEmpty "INCRBY" ["k", "-5"])).contents ≠
        (dispatchEmpty "INCRBY" ["k", "-5"]).store.contents) ∧
    (dispatchEmpty "ZADD" ["z", "1", "a"]).log ≠ [] ∧
      (restart (dispatchEmpty "ZADD" ["z", "1", "a"])).contents ≠
        (dispatchEmpty "ZADD" ["z", "1", "a"]).store.contents := by
  refine ⟨Store.same_empty.left, ⟨by decide +kernel, fun h => ?_⟩, by decide +kernel, fun h => ?_⟩
  · have hcounter := congrArg (fun c : String → Option Content => Content.bytesOf (c "k")) h
    exact absurd hcounter (by decide +kernel)
  · have hkey := congrArg (fun c : String → Option Content => (c "z").isSome) h
    exact absurd hkey (by decide +kernel)

/-- A test for a request that counts. -/
def asksIncrby : Reading → Bool
  | .ok (.incrby _ _ _) => true
  | _ => false

/-- `DECRBY k 5` is replayed as it was done. -/
theorem replayed_decrby : (dispatchEmpty "DECRBY" ["k", "5"]).log ≠ [] ∧
    (restart (dispatchEmpty "DECRBY" ["k", "5"])).contents =
      (dispatchEmpty "DECRBY" ["k", "5"]).store.contents := by
  have hlog : (dispatchEmpty "DECRBY" ["k", "5"]).log =
      [[Utf8.toBytes "DECRBY", Utf8.toBytes "k", Utf8.toBytes "5"]] := by decide +kernel
  have hne : (dispatchEmpty "DECRBY" ["k", "5"]).log ≠ [] := by
    rw [hlog]
    exact List.cons_ne_nil _ _
  have hfit : ∀ r ∈ (dispatchEmpty "DECRBY" ["k", "5"]).log, Record.Fits r := by
    rw [hlog, List.forall_mem_singleton]
    simp only [Record.Fits, Frame.bulks, List.map, Frame.Fits, Frame.AllFit]
    decide
  refine ⟨hne, (records_faithful_iff .standalone _ _ _ Store.same_empty.left hne hfit rfl _ _).mpr
    fun r hr => ?_⟩
  have hincrby : asksIncrby (readCommand .standalone "DECRBY"
      ([.bulkStr "DECRBY", .bulkStr "k", .bulkStr "5"])) = true := by decide +kernel
  have hread : readCommand .standalone "DECRBY"
      [.bulkStr "DECRBY", .bulkStr "k", .bulkStr "5"] = .ok r := hr
  rw [hread] at hincrby
  cases r with
  | incrby =>
    have hfive : bulkAsI64 (["DECRBY", "k", "5"].map .bulkStr) 2 = some (Text.wrap 5) := by
      decide +kernel
    intro n hn hneg
    rw [hfive, Option.some.injEq] at hn
    rw [← hn] at hneg
    exact absurd hneg (by decide)
  | _ => cases hincrby

end Drifting

end LoonyRedis
