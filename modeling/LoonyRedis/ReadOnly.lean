import LoonyRedis.Determinism
import LoonyRedis.ExpiredKeys
import LoonyRedis.Membership

/-!
# Commands that are not writes

The program decides by one list of names which commands are refused on a read-only replica
and which go through the Raft log. Any other command may remove expired keys, which no client
sees, and keeps the rest of the store, with one exception : `MIGRATE` is not on the list, and
it removes its key once the target has accepted it (`live_migrateHere_iff`).

A command may contact another node. What that node answers is a parameter here.
-/

namespace LoonyRedis

open Std Store

/-! ## Requests -/

namespace Store

variable {now : ℕ} {s : Store}

/-- A lookup removes its key only if it has expired. -/
theorem live_get (now : ℕ) (key : String) (s : Store) : (s.get now key).2.live now = s.live now := by
  unfold get
  cases hkey : s[key]? with
  | none => rfl
  | some e =>
    cases he : e.isExpired now with
    | false => simp [he]
    | true =>
      simp only [he, if_true]
      rw [live_erase, FinMap.erase_of_getElem? (getElem?_live_of_expired hkey he)]

theorem live_mgetLoop (now : ℕ) : ∀ (ks : List (Option String)) (s : Store),
    (mgetLoop now ks s).2.live now = s.live now
  | [], _ => rfl
  | none :: ks, s => live_mgetLoop now ks s
  | some k :: ks, s => (live_mgetLoop now ks _).trans (live_get now k s)

end Store

/-- Only writes change what has not expired. -/
theorem Request.run_live_of_not_isWrite {r : Request} (hr : r.isWrite = false) (ctx : CommandContext)
    (env : Env) (s : Store) : (r.run ctx env s).store.live env.now = s.live env.now := by
  cases r with
  | get key | strlen key => exact live_get env.now key s
  | mget ks => exact live_mgetLoop env.now ks s
  | answer | info | debugObject | existsKeys | type | ttl | pttl | keys | dbsize | hmget => rfl
  | llen | lrange | lindex | hget | hgetall | hlen | hexists | hkeys | hvals | smembers | sismember
  | scard | srandmember | combine | zscore | zrank | zrevrank | zcard | zcount | zrange
  | zrangebyscore => exact congrArg _ store_of
  | _ => cases hr

/-! ## MIGRATE -/

/-- The node that executes a command, by itself. -/
def World.solo (s : Store) : World := fun _ => some ⟨s, ⟨[], 0⟩⟩

/-- `MIGRATE` on a node with the store `s`; `peer` is what the target answers to a frame, or
the error frame of a call that fails. -/
def migrateHere (env : Env) (peer : String → Frame → Frame) (args : List Frame) (s : Store) :
    Frame × Store :=
  let r := cmdMigrate (fun target frame w => (peer target frame, w)) env "" args s (World.solo s)
  (r.1, (r.2 "").elim ∅ ClusterNode.store)

/-- The option that leaves the key in place. -/
def hasCopy (args : List Frame) : Bool :=
  (args.drop 6).any fun f =>
    f.payload.any fun b => b.map Text.toAsciiUppercase = Utf8.toBytes "COPY"

/-- A `MIGRATE` without `COPY` of a key that is there, which the target accepts. -/
def Migrates (env : Env) (peer : String → Frame → Frame) (args : List Frame) (s : Store) : Prop :=
  6 ≤ args.length ∧ hasCopy args = false ∧ ∃ host port key v,
    bulkAsStr args 1 = some host ∧
    (bulkAsStr args 2).bind (fun p => Text.parseU16 p.toList) = some port ∧
    bulkAsStr args 3 = some key ∧ (s.get env.now key).1 = some v ∧
    peer s!"{host}:{port}" (buildValueFrame env key v (s.pttl env.now key)) = .simpleString "OK"

section Migrate

variable {env : Env} {peer : String → Frame → Frame} {args : List Frame} {s : Store}

/-- Removing a key that is there shows. -/
theorem Store.live_erase_ne {now : ℕ} {key : String} {v : Value} (h : (s.get now key).1 = some v) :
    live now (s.erase key) ≠ s.live now := by
  intro heq
  have hnone : (s.live now)[key]? = none := by
    rw [← heq, live_erase, FinMap.getElem?_erase, if_pos rfl]
  unfold get at h
  cases hkey : s[key]? with
  | none => simp [hkey] at h
  | some e =>
    cases he : e.isExpired now with
    | true => simp [hkey, he] at h
    | false =>
      rw [getElem?_live_of_live hkey he] at hnone
      cases hnone

/-- A `MIGRATE` that is refused for its arguments changes nothing. -/
theorem migrateHere_refused (h : args.length < 6 ∨ bulkAsStr args 1 = none ∨
    (bulkAsStr args 2).bind (fun p => Text.parseU16 p.toList) = none ∨ bulkAsStr args 3 = none) :
    (migrateHere env peer args s).2 = s := by
  unfold migrateHere cmdMigrate
  split
  · rfl
  · next hlen =>
    split
    · rfl
    · rfl
    · rfl
    · next hhost hport hkey =>
      rcases h with h | h | h | h
      · exact absurd h hlen
      · cases hhost.symm.trans h
      · cases hport.symm.trans h
      · cases hkey.symm.trans h

/-- What `MIGRATE` leaves of the store. -/
theorem migrateHere_read {host key : String} {port : ℕ} (hlen : 6 ≤ args.length)
    (hhost : bulkAsStr args 1 = some host)
    (hport : (bulkAsStr args 2).bind (fun p => Text.parseU16 p.toList) = some port)
    (hkey : bulkAsStr args 3 = some key) : (migrateHere env peer args s).2 =
      match (s.get env.now key).1 with
      | none => (s.get env.now key).2
      | some v =>
        if hasCopy args = false ∧ peer s!"{host}:{port}"
          (buildValueFrame env key v (s.pttl env.now key)) = .simpleString "OK"
        then s.erase key else s := by
  unfold migrateHere cmdMigrate
  rw [if_neg (by omega), hhost, hport, hkey]
  cases hget : s.get env.now key with
  | mk v s' =>
    cases v with
    | none => simp [hget, World.setStore, World.solo]
    | some v =>
      obtain rfl : s' = s := by
        simpa [hget] using Request.get_store_of_isSome (congrArg Prod.fst hget)
      have hsolo : (World.solo s' "").elim ∅ ClusterNode.store = s' := rfl
      simp only [hget]
      generalize peer s!"{host}:{port}" (buildValueFrame env key v (s'.pttl env.now key)) = resp
      cases resp with
      | simpleString t =>
        by_cases ht : t = "OK"
        · have hcopy : ((args.drop 6).any fun f => f.payload.any fun b =>
              decide (b.map Text.toAsciiUppercase = Utf8.toBytes "COPY")) = hasCopy args := rfl
          simp only [ht, hcopy]
          cases hasCopy args with
          | true => simp [hsolo]
          | false => simp [World.setStore, World.solo, del]
        · simp [ht, hsolo]
      | _ => simp [hsolo]

/-- `MIGRATE` changes the data of the node that executes it exactly if the target has
accepted a key that does not stay. -/
theorem live_migrateHere_iff : (migrateHere env peer args s).2.live env.now = s.live env.now ↔
    ¬ Migrates env peer args s := by
  by_cases hrefused : args.length < 6 ∨ bulkAsStr args 1 = none ∨
      (bulkAsStr args 2).bind (fun p => Text.parseU16 p.toList) = none ∨ bulkAsStr args 3 = none
  · rw [migrateHere_refused hrefused]
    refine iff_of_true rfl ?_
    rintro ⟨hlen, -, host, port, key, v, hhost, hport, hkey, -⟩
    rcases hrefused with h | h | h | h
    · omega
    · cases h.symm.trans hhost
    · cases h.symm.trans hport
    · cases h.symm.trans hkey
  · simp only [not_or, Nat.not_lt, ← ne_eq, Option.ne_none_iff_exists'] at hrefused
    obtain ⟨hlen, ⟨host, hhost⟩, ⟨port, hport⟩, ⟨key, hkey⟩⟩ := hrefused
    have hmigrates : Migrates env peer args s ↔ hasCopy args = false ∧
        ∃ v, (s.get env.now key).1 = some v ∧ peer s!"{host}:{port}"
          (buildValueFrame env key v (s.pttl env.now key)) = .simpleString "OK" := by
      simp only [Migrates, hhost, hport, hkey, Option.some.injEq]
      constructor
      · rintro ⟨-, hcopy, _, _, _, v, rfl, rfl, rfl, hget, hpeer⟩
        exact ⟨hcopy, v, hget, hpeer⟩
      · rintro ⟨hcopy, v, hget, hpeer⟩
        exact ⟨hlen, hcopy, host, port, key, v, rfl, rfl, rfl, hget, hpeer⟩
    rw [migrateHere_read hlen hhost hport hkey, hmigrates]
    cases hget : (s.get env.now key).1 with
    | none => simpa using live_get env.now key s
    | some v =>
      simp only [Option.some.injEq, exists_eq_left']
      split
      · next h => exact iff_of_false (live_erase_ne hget) (not_not.mpr h)
      · next h => exact iff_of_true rfl h

end Migrate

/-! ## Dispatch -/

/-- Dispatch a command on this node : `MIGRATE` contacts another one. -/
def dispatchWith (ctx : CommandContext) (env : Env) (peer : String → Frame → Frame) (name : String)
    (args : List Frame) (s : Store) : Outcome :=
  if name = "MIGRATE" then
    let r := migrateHere env peer args s
    ⟨r.1, r.2, []⟩
  else dispatch ctx env name args s

section Dispatch

variable {ctx : CommandContext} {env : Env} {peer : String → Frame → Frame} {name : String}
  {args : List Frame} {s : Store}

theorem dispatch_live_of_not_isWrite (hname : isWrite name = false) :
    (dispatch ctx env name args s).store.live env.now = s.live env.now := by
  unfold dispatch
  cases hread : readCommand ctx name args with
  | error f => rfl
  | ok r => exact r.run_live_of_not_isWrite ((isWrite_of_readCommand hread).trans hname) ctx env s

theorem dispatchWith_live_iff (hname : isWrite name = false) :
    (dispatchWith ctx env peer name args s).store.live env.now = s.live env.now ↔
      ¬ (name = "MIGRATE" ∧ Migrates env peer args s) := by
  unfold dispatchWith
  split
  · next h => simpa [h] using live_migrateHere_iff
  · next h => simpa [h] using dispatch_live_of_not_isWrite hname

end Dispatch

/-! ## Nodes that clients do not write to -/

/-- A client of a read-only replica, or of a Raft node, which writes through its log. -/
structure CommandContext.ReadOnly (ctx : CommandContext) : Prop where
  client : ctx.isReplicaReplay = false
  guarded : ctx.isLeader = false ∨ ctx.raft.isSome = true

/-- The node answers without its store, or leaves the frame to another node or the log. -/
def Route.isAway : Route → Bool
  | .reply _ | .propose _ | .proxy _ _ => true
  | .remote _ _ | .dispatch _ _ => false

/-- What becomes of a frame that leaves the node : the log answers a proposal, and another
node a proxied command. -/
def elsewhereWith (env : Env) (peer : String → Frame → Frame) (log : List Frame → Frame) :
    Route → Store → Outcome
  | .remote _ args, s =>
    let r := migrateHere env peer args s
    ⟨r.1, r.2, []⟩
  | .proxy target args, s => ⟨peer target (.array (some args)), s, []⟩
  | .propose args, s => ⟨log args, s, []⟩
  | .reply f, s => ⟨f, s, []⟩
  | .dispatch _ _, s => ⟨.ok, s, []⟩

section ReadOnlyNode

variable {ctx : CommandContext} {env : Env} {peer : String → Frame → Frame}
  {log : List Frame → Frame} {name : String} {args : List Frame} {frame : Frame} {s : Store}

/-- A frame with a command name is routed by it. -/
theorem route_of_frameName (h : frameName frame = some name) : ∃ args,
    frame = .array (some args) ∧ ∀ ctx, route ctx frame = routeCommand ctx name args := by
  unfold frameName at h
  split at h
  · next args =>
    obtain ⟨cmd, hcmd, rfl⟩ := Option.map_eq_some_iff.mp h
    have hne : args ≠ [] := by
      rintro rfl
      cases hcmd
    refine ⟨args, rfl, fun ctx => ?_⟩
    rw [route.eq_2 _ _ hne, hcmd]
  · cases h

/-- A frame without one is answered with an error. -/
theorem route_of_no_frameName (h : frameName frame = none) (ctx : CommandContext) :
    ∃ f, route ctx frame = .reply f := by
  unfold route
  split
  · exact ⟨_, rfl⟩
  · next args _ =>
    have hcmd : bulkBytes args 0 = none := by simpa [frameName] using h
    rw [hcmd]
    exact ⟨_, rfl⟩
  · exact ⟨_, rfl⟩

theorem execute_of_isAway (h : (route ctx frame).isAway = true) :
    (execute ctx (elsewhereWith env peer log) env frame s).store = s := by
  unfold execute
  cases hroute : route ctx frame <;> rw [hroute] at h <;> first | rfl | cases h

theorem clusterRoute_isAway {cfg : ClusterConfig} {r : Route}
    (h : clusterRoute cfg name args = some r) : r.isAway = true ∧ name ≠ "MIGRATE" := by
  have hmigrate : commandSlot "MIGRATE" args = .none := by
    simp [commandSlot, singleKeyCommands]
  unfold clusterRoute at h
  constructor
  · split at h
    · obtain rfl := Option.some.inj h
      rfl
    · split at h
      · cases h
      · obtain rfl := Option.some.inj h
        rfl
    · cases h
  · rintro rfl
    rw [hmigrate] at h
    cases h

/-- A write never reaches the store. -/
theorem routeCommand_of_isWrite (hctx : ctx.ReadOnly) (hwrite : isWrite name = true) :
    (routeCommand ctx name args).isAway = true := by
  unfold routeCommand
  rw [hctx.client, hwrite]
  cases hraft : ctx.raft with
  | some raft =>
    simp only
    split <;> rfl
  | none =>
    have hleader : ctx.isLeader = false := hctx.guarded.resolve_right (by simp [hraft])
    have hhere : (routeHere ctx name args).isAway = true := by
      simp [routeHere, hwrite, hctx.client, hleader, Route.isAway]
    cases ctx.cluster with
    | none => exact hhere
    | some cfg =>
      simp only
      split
      · exact hhere
      · cases hroute : clusterRoute cfg name args with
        | none => exact hhere
        | some r => exact (clusterRoute_isAway hroute).1

/-- Another command is dispatched, unless its keys belong to another node. -/
theorem routeCommand_of_not_isWrite (hctx : ctx.ReadOnly) (hwrite : isWrite name = false)
    (hcluster : name ≠ "CLUSTER") (args : List Frame) :
    (routeCommand ctx name args).isAway = true ∧ name ≠ "MIGRATE" ∨
      routeCommand ctx name args =
        if name = "MIGRATE" then .remote name args else .dispatch name args := by
  have hhere : routeHere ctx name args =
      if name = "MIGRATE" then .remote name args else .dispatch name args := by
    simp [routeHere, hwrite, hcluster]
  unfold routeCommand
  rw [hctx.client, hwrite]
  cases ctx.cluster with
  | none => exact Or.inr hhere
  | some cfg =>
    simp only [if_neg hcluster]
    cases hroute : clusterRoute cfg name args with
    | none => exact Or.inr hhere
    | some r => exact Or.inl (clusterRoute_isAway hroute)

theorem execute_live_iff (hctx : ctx.ReadOnly) (hcluster : frameName frame ≠ some "CLUSTER") :
    (execute ctx (elsewhereWith env peer log) env frame s).store.live env.now = s.live env.now ↔
      ¬ ∃ args, frame = .array (some args) ∧ frameName frame = some "MIGRATE" ∧
        Migrates env peer args s := by
  cases hname : frameName frame with
  | none =>
    obtain ⟨f, hf⟩ := route_of_no_frameName hname ctx
    have hstore : (execute ctx (elsewhereWith env peer log) env frame s).store = s :=
      execute_of_isAway (by rw [hf]; rfl)
    rw [hstore]
    simp
  | some name =>
    obtain ⟨args, rfl, hroute⟩ := route_of_frameName hname
    have hne : name ≠ "CLUSTER" := fun h => hcluster (h ▸ hname)
    have hcond : (∃ args', Frame.array (some args) = .array (some args') ∧
        some name = some "MIGRATE" ∧ Migrates env peer args' s) ↔
        name = "MIGRATE" ∧ Migrates env peer args s := by simp
    rw [hcond]
    cases hwrite : isWrite name with
    | true =>
      have hmigrate : name ≠ "MIGRATE" := fun h => local_of_isWrite hwrite (Or.inr h)
      rw [execute_of_isAway (by rw [hroute]; exact routeCommand_of_isWrite hctx hwrite)]
      simp [hmigrate]
    | false =>
      rcases routeCommand_of_not_isWrite hctx hwrite hne args with ⟨haway, hmigrate⟩ | hhere
      · rw [execute_of_isAway (by rw [hroute]; exact haway)]
        simp [hmigrate]
      · have hrun : (execute ctx (elsewhereWith env peer log) env (.array (some args)) s).store =
            (dispatchWith ctx env peer name args s).store := by
          rw [execute, hroute, hhere, dispatchWith]
          by_cases hmigrate : name = "MIGRATE"
          · rw [if_pos hmigrate, if_pos hmigrate]
            rfl
          · rw [if_neg hmigrate, if_neg hmigrate]
        rw [hrun]
        exact dispatchWith_live_iff hwrite

end ReadOnlyNode

/-- A command that is not on the list of write commands, nor `CLUSTER`, keeps the live keys
with their values and expiries, exactly if it is not a `MIGRATE` that moves a key away. The
same holds for every frame that a client sends to a node that it may not write to. -/
theorem non_writes_keep_data_iff (ctx : CommandContext) (env : Env)
    (peer : String → Frame → Frame) (log : List Frame → Frame) (s : Store) :
    (∀ name args, isWrite name = false → name ≠ "CLUSTER" →
      ((dispatchWith ctx env peer name args s).store.live env.now = s.live env.now ↔
        ¬ (name = "MIGRATE" ∧ Migrates env peer args s))) ∧
    ∀ frame, ctx.ReadOnly → frameName frame ≠ some "CLUSTER" →
      ((execute ctx (elsewhereWith env peer log) env frame s).store.live env.now =
          s.live env.now ↔
        ¬ ∃ args, frame = .array (some args) ∧ frameName frame = some "MIGRATE" ∧
          Migrates env peer args s) :=
  ⟨fun _ _ hname _ => dispatchWith_live_iff hname,
    fun _ hctx hcluster => execute_live_iff hctx hcluster⟩

/-- A replica, with a leader somewhere else. -/
def CommandContext.replica : CommandContext := { CommandContext.standalone with isLeader := false }

/-- A frame sent to a replica that holds the key `k`, with a node that accepts every key. -/
def onReplica (words : List String) : Store :=
  (execute CommandContext.replica (elsewhereWith (.plain 0) (fun _ _ => .ok) fun _ => .ok) (.plain 0)
    (.command words) ((∅ : Store).insert "k" ⟨.string [], none⟩)).store

/-- `MIGRATE` of a key to a node that accepts it, sent to a read-only replica. -/
theorem migrate_deletes_on_replica : isWrite "MIGRATE" = false ∧ CommandContext.replica.ReadOnly ∧
    (onReplica ["MIGRATE", "h", "1", "k", "0", "1000"]).isEmpty = true :=
  ⟨by decide, ⟨rfl, Or.inl rfl⟩, by decide⟩

/-- With `COPY` the key stays. -/
theorem migrate_copy_keeps_data : (onReplica ["MIGRATE", "h", "1", "k", "0", "1000", "copy"]).live 0 =
    live 0 ((∅ : Store).insert "k" ⟨.string [], none⟩) := by
  refine ((non_writes_keep_data_iff _ (.plain 0) _ _ _).2 _ ⟨rfl, Or.inl rfl⟩
    (by decide)).mpr ?_
  rintro ⟨args, hargs, -, -, hcopy, -⟩
  obtain rfl := Option.some.inj (Frame.array.inj hargs)
  revert hcopy
  decide

end LoonyRedis
