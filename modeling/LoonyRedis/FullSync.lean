import LoonyRedis.Lib.Runs
import LoonyRedis.SameContents

/-!
# Full-sync

A leader that serves writes, and the connection of a replica on it (`handle_replica_sync`) :
subscribe to the write stream, send a snapshot, forward what the subscription received. A
write changes the store of the leader first and is broadcast afterwards, so the steps of the
connection may fall in between. The replica executes what arrives, in order.

The subscription comes before the snapshot so that no write is missed. A write that was
broadcast in between, or that had changed the store and was not broadcast yet, is in the
snapshot and in the stream, and is done twice (`Doubled`). Full-sync is right if doing these
again changes nothing, and if every value of the leader can be sent : an empty collection
is left out of a snapshot, and a score that is not a number is skipped by `ZADD`.
-/

namespace LoonyRedis

open Std Store

/-! ## Frames that are writes -/

/-- The name of the command in a frame. -/
def frameName : Frame → Option String
  | .array (some args) => (bulkBytes args 0).map commandName
  | _ => none

/-- Whether `execute` broadcasts a frame that was answered with `reply`. -/
def broadcasts (ctx : CommandContext) (frame : Frame) (reply : Frame) : Bool :=
  (frameName frame).any isWrite && !ctx.isReplicaReplay && ctx.isLeader && ctx.raft.isNone &&
    !reply.isError

/-- A write whose result depends neither on chance nor on the time. -/
def isDeterministic (ctx : CommandContext) (frame : Frame) : Bool :=
  (requestOf ctx frame).any Request.isDeterministicWrite

/-- No collection is empty, and no score is not a number. -/
def Store.Sendable (s : Store) : Prop :=
  ∀ (k : String) (e : Entry), s[k]? = some e → e.value.isEmpty = false ∧ ¬ e.value.HasNaN

/-- No collection is empty. -/
def Store.NoEmpty (s : Store) : Prop :=
  ∀ (k : String) (e : Entry), s[k]? = some e → e.value.isEmpty = false

/-- What can be sent has no empty collections. -/
theorem Store.Sendable.noEmpty {s : Store} (h : s.Sendable) : s.NoEmpty :=
  fun k e he => (h k e he).1

/-- The entries hold every key of the store once, with its value. -/
structure Store.SentBy (s : Store) (l : List SnapshotEntry) : Prop where
  keys : (l.map SnapshotEntry.key).Perm s.keys
  entry : ∀ x ∈ l, ∃ env e, s[x.key]? = some e ∧ snapshotEntry env x.key e.value = some x

/-- The node executes a write of the key itself : it replays, or it is a leader without Raft
that owns the slot of the key. -/
def CommandContext.ServesKey (ctx : CommandContext) (key : String) : Prop :=
  ctx.isReplicaReplay = true ∨ ctx.raft = none ∧ ctx.isLeader = true ∧
    ∀ cfg, ctx.cluster = some cfg → cfg.isMine (slotForKey (Utf8.toBytes key)) = true

/-- Execute the frames of a log one after the other, from entry `i` on; `envAt i` are the
surroundings of entry `i`. -/
def applyLog (ctx : CommandContext) (elsewhere : Route → Store → Outcome) (envAt : ℕ → Env) :
    ℕ → List Frame → Store → Store
  | _, [], s => s
  | i, f :: fs, s =>
    applyLog ctx elsewhere envAt (i + 1) fs (execute ctx elsewhere (envAt i) f s).store

/-! ## The system -/

/-- A leader and a replica, without Raft and cluster. -/
structure Deployment where
  leader : CommandContext
  replica : CommandContext
  leader_raft : leader.raft = none
  leader_cluster : leader.cluster = none
  replica_raft : replica.raft = none
  replica_cluster : replica.cluster = none
  replica_replay : replica.isReplicaReplay = true

/-- How far the full sync is : before the subscription, between it and the snapshot, or after
both. -/
inductive SyncPhase where
  | idle
  | subscribed
  | streaming
  deriving DecidableEq

/-- The leader, one replica and what is between them. -/
structure SyncState where
  leader : Store
  /-- A write that has changed the store of the leader and is not broadcast yet. -/
  pending : Option Frame
  phase : SyncPhase
  /-- What the subscription has received, in order. -/
  channel : List Frame
  /-- What was sent to the replica and has not been executed there. -/
  socket : List Frame
  replica : Store

/-- The steps of the leader, the sender and the replica, in any order. -/
inductive SyncEvent where
  /-- A client's write changes the store of the leader. -/
  | write (env : Env) (frame : Frame)
  /-- The write is broadcast. -/
  | broadcast
  | subscribe
  | snapshot (env : Env)
  /-- One frame of the channel is forwarded. -/
  | forward
  /-- The replica executes one frame. -/
  | apply (env : Env)

namespace SyncState

/-- A leader before a replica connects. -/
def start (s : Store) : SyncState := ⟨s, none, .idle, [], [], ∅⟩

/-- Nothing is on the way any more. -/
def Settled (σ : SyncState) : Prop :=
  σ.phase = .streaming ∧ σ.pending = none ∧ σ.channel = [] ∧ σ.socket = []

/-- The writes that are in the snapshot taken now, and will be in the stream. -/
def doubled (σ : SyncState) : List Frame := σ.channel ++ σ.pending.toList

end SyncState

namespace Deployment

variable (d : Deployment)

/-- Nothing leaves a node without Raft and cluster but `CLUSTER` and `MIGRATE`. -/
def nowhere (_ : Route) (s : Store) : Outcome := ⟨.ok, s, []⟩

/-- A frame executed by the leader. -/
def onLeader (env : Env) (frame : Frame) (s : Store) : Outcome :=
  execute d.leader nowhere env frame s

/-- The store of the replica after a frame. -/
def onReplica (env : Env) (frame : Frame) (s : Store) : Store :=
  (execute d.replica nowhere env frame s).store

/-- Execute frames one after the other on the replica. -/
def replay (env : Env) (frames : List Frame) (s : Store) : Store :=
  frames.foldl (fun s f => d.onReplica env f s) s

/-- A write waits for its broadcast before the next, and what is broadcast reaches the channel
only after the subscription. -/
def step (σ : SyncState) : SyncEvent → Option SyncState
  | .write env frame =>
    let o := d.onLeader env frame σ.leader
    if σ.pending = none ∧ isDeterministic d.leader frame = true ∧
        broadcasts d.leader frame o.reply = true then
      some { σ with leader := o.store, pending := some frame }
    else none
  | .broadcast =>
    match σ.pending with
    | none => none
    | some f => some { σ with
        pending := none
        channel := if σ.phase = .idle then σ.channel else σ.channel ++ [f] }
  | .subscribe => if σ.phase = .idle then some { σ with phase := .subscribed } else none
  | .snapshot env =>
    if σ.phase = .subscribed then
      some { σ with
        phase := .streaming
        socket := σ.socket ++ (σ.leader.snapshot env).map snapshotEntryToResp }
    else none
  | .forward =>
    match σ.phase, σ.channel with
    | .streaming, f :: rest => some { σ with channel := rest, socket := σ.socket ++ [f] }
    | _, _ => none
  | .apply env =>
    match σ.socket with
    | f :: rest => some { σ with socket := rest, replica := d.onReplica env f σ.replica }
    | [] => none

/-- When the snapshot is taken, doing the doubled writes again would leave the contents of
the leader as they are, and every value of the leader can be sent. -/
def Clean (σ : SyncState) : SyncEvent → Prop
  | .snapshot _ =>
    (d.replay (.plain 0) σ.doubled σ.leader).contents = σ.leader.contents ∧
      σ.leader.Sendable
  | _ => True

/-! ## Deterministic writes -/

variable {d}

/-- A frame with a request runs it on this node. -/
theorem execute_of_requestOf {ctx : CommandContext} {elsewhere : Route → Store → Outcome} {env : Env}
    {frame : Frame} {r : Request} (h : requestOf ctx frame = some r) (s : Store) :
    execute ctx elsewhere env frame s = r.run ctx env s := by
  unfold requestOf at h
  split at h
  · next name args hroute =>
    cases hread : readCommand ctx name args with
    | error f =>
      rw [hread] at h
      cases h
    | ok r' =>
      rw [hread] at h
      obtain rfl : r' = r := Option.some.inj h
      simp [execute, hroute, dispatch, hread]
  · cases h

set_option maxRecDepth 2000 in
/-- Only `DEBUG` looks at the context. -/
theorem readCommand_congr (ctx ctx' : CommandContext) {name : String} (hname : name ≠ "DEBUG")
    (args : List Frame) : readCommand ctx name args = readCommand ctx' name args := by
  have hlookup : (commandTable ctx).lookup name = (commandTable ctx').lookup name := by
    have hne : (name == "DEBUG") = false := by simpa using hname
    simp only [commandTable, List.lookup_cons, List.lookup_nil, hne]
  rw [readCommand, readCommand, hlookup]

/-- On a single node only the frame of a command is dispatched. -/
theorem route_eq_dispatch {ctx : CommandContext} (hraft : ctx.raft = none)
    (hcluster : ctx.cluster = none) {frame : Frame} {name : String} {args : List Frame}
    (h : route ctx frame = .dispatch name args) : frame = .array (some args) ∧ args ≠ [] ∧
      ∃ cmd, bulkBytes args 0 = some cmd ∧ commandName cmd = name ∧
        ¬ (name = "CLUSTER" ∨ name = "MIGRATE") := by
  unfold route at h
  split at h
  · cases h
  · next args' hne =>
    cases hcmd : bulkBytes args' 0 with
    | none => simp [hcmd] at h
    | some cmd =>
      simp only [hcmd, routeCommand_single hraft hcluster, routeHere] at h
      split at h
      · cases h
      · split at h
        · cases h
        · next hlocal =>
          obtain ⟨rfl, rfl⟩ := Route.dispatch.inj h
          exact ⟨rfl, hne, cmd, hcmd, rfl, hlocal⟩
  · cases h

/-- A request that the leader dispatches is dispatched on the replica. -/
theorem requestOf_replica {frame : Frame} {r : Request}
    (hwrite : (frameName frame).any isWrite = true) (hr : requestOf d.leader frame = some r) :
    requestOf d.replica frame = some r := by
  unfold requestOf at hr
  split at hr
  · next name args hroute =>
    obtain ⟨rfl, hargs, cmd, hcmd, rfl, hlocal⟩ :=
      route_eq_dispatch d.leader_raft d.leader_cluster hroute
    have hname : isWrite (commandName cmd) = true := by simpa [frameName, hcmd] using hwrite
    have hne : commandName cmd ≠ "DEBUG" := by
      intro h
      rw [h] at hname
      exact absurd hname (by decide)
    have hreplica : route d.replica (.array (some args)) = .dispatch (commandName cmd) args := by
      rw [route.eq_2 _ _ hargs]
      simp [hcmd, routeCommand_single d.replica_raft d.replica_cluster, routeHere, hlocal,
        d.replica_replay]
    rw [requestOf, hreplica, ← hr]
    simp only [readCommand_congr d.replica d.leader hne]
  · cases hr

/-- The replica executes these frames, and does to its store what the leader does. -/
def Replayable (d : Deployment) (frame : Frame) : Prop :=
  ∃ r, requestOf d.replica frame = some r ∧ r.isDeterministicWrite = true

/-- A write that is broadcast can be replayed. -/
theorem replayable_of_write {frame reply : Frame} (hdet : isDeterministic d.leader frame = true)
    (hbroadcast : broadcasts d.leader frame reply = true) : d.Replayable frame := by
  obtain ⟨r, hr, hdet⟩ := (Option.any_eq_true ..).mp hdet
  simp only [broadcasts, Bool.and_eq_true] at hbroadcast
  exact ⟨r, requestOf_replica hbroadcast.1.1.1.1 hr, hdet⟩

/-- The replica does not see the surroundings of a write that can be replayed. -/
theorem onReplica_same {frame : Frame} (hf : d.Replayable frame) {s t : Store} (h : s.Same t)
    (env env' : Env) : (d.onReplica env frame s).Same (d.onReplica env' frame t) := by
  obtain ⟨r, hr, hdet⟩ := hf
  rw [onReplica, onReplica, execute_of_requestOf hr, execute_of_requestOf hr]
  exact Request.run_same hdet h ..

/-- The leader does not see the surroundings of a deterministic write. -/
theorem onLeader_same {frame reply : Frame} (hdet : isDeterministic d.leader frame = true)
    (hbroadcast : broadcasts d.leader frame reply = true) {s t : Store} (h : s.Same t)
    (env env' : Env) : (d.onReplica env frame s).Same (d.onLeader env' frame t).store := by
  obtain ⟨r, hr, hdet⟩ := (Option.any_eq_true ..).mp hdet
  simp only [broadcasts, Bool.and_eq_true] at hbroadcast
  rw [onReplica, onLeader, execute_of_requestOf hr,
    execute_of_requestOf (requestOf_replica hbroadcast.1.1.1.1 hr)]
  exact Request.run_same hdet h ..

/-- The surroundings of a whole replay do not show. -/
theorem replay_same {frames : List Frame} (hf : ∀ f ∈ frames, d.Replayable f) {s t : Store}
    (h : s.Same t) (env env' : Env) : (d.replay env frames s).Same (d.replay env' frames t) := by
  induction frames generalizing s t with
  | nil => exact h
  | cons f frames ih =>
    rw [List.forall_mem_cons] at hf
    exact ih hf.2 (onReplica_same hf.1 h env env')

theorem replay_append (env : Env) (fs gs : List Frame) (s : Store) :
    d.replay env (fs ++ gs) s = d.replay env gs (d.replay env fs s) := List.foldl_append

theorem replay_eq_applyLog (env : Env) : ∀ (fs : List Frame) (i : ℕ) (s : Store),
    d.replay env fs s = applyLog d.replica nowhere (fun _ => env) i fs s
  | [], _, _ => rfl
  | f :: fs, i, s => replay_eq_applyLog env fs (i + 1) (d.onReplica env f s)

/-! ## The snapshot -/

section Entries

variable {ctx : CommandContext}

/-- A command that recreates a key is dispatched on a node that serves the key. -/
theorem route_of_servesKey {key name : String} (hserves : ctx.ServesKey key)
    (hname : name ∈ ["SET", "RPUSH", "HSET", "SADD", "ZADD"]) (rest : List Frame) :
    route ctx (.array (some (.bulkStr name :: .bulkStr key :: rest))) =
      .dispatch name (.bulkStr name :: .bulkStr key :: rest) := by
  have hall : ∀ n ∈ ["SET", "RPUSH", "HSET", "SADD", "ZADD"],
      commandName (Utf8.toBytes n) = n ∧ n ∈ singleKeyCommands ∧ n ≠ "CLUSTER" ∧ n ≠ "MIGRATE" := by
    decide
  obtain ⟨hcommand, hsingle, hcluster, hmigrate⟩ := hall name hname
  have hslot : commandSlot name (.bulkStr name :: .bulkStr key :: rest) =
      .slot (slotForKey (Utf8.toBytes key)) := by
    rw [commandSlot, if_pos hsingle]
    rfl
  have hbytes : bulkBytes (.bulkStr name :: .bulkStr key :: rest) 0 = some (Utf8.toBytes name) := rfl
  rw [route.eq_2 _ _ (List.cons_ne_nil _ _), hbytes]
  simp only [hcommand]
  rcases hserves with hreplay | ⟨hraft, hleader, hmine⟩
  · simp [routeCommand_replay hreplay, routeHere, hcluster, hmigrate, hreplay]
  · have hhere : routeHere ctx name (.bulkStr name :: .bulkStr key :: rest) =
        .dispatch name (.bulkStr name :: .bulkStr key :: rest) := by
      simp [routeHere, hcluster, hmigrate, hleader]
    cases hcfg : ctx.cluster with
    | none => rw [routeCommand_single hraft hcfg, hhere]
    | some cfg =>
      have hnone : clusterRoute cfg name (.bulkStr name :: .bulkStr key :: rest) = none := by
        rw [clusterRoute, hslot]
        simp [hmine cfg hcfg]
      unfold routeCommand
      rw [hraft, hcfg]
      cases ctx.isReplicaReplay <;> cases isWrite name <;> simp [hcluster, hnone, hhere]

/-- What a frame of the snapshot asks for. -/
theorem requestOf_entry {e : SnapshotEntry} (hserves : ctx.ServesKey e.key)
    (he : e.elements ≠ []) : requestOf ctx (snapshotEntryToResp e) = some e.request := by
  rw [requestOf, SnapshotEntry.snapshotEntryToResp_eq, route_of_servesKey hserves e.name_mem]
  simp only [SnapshotEntry.readCommand_eq he, Except.toOption]

/-- What executing an entry makes of the old value of its key. -/
theorem execute_entry {e : SnapshotEntry} (hserves : ctx.ServesKey e.key) (he : e.elements ≠ [])
    (elsewhere : Route → Store → Outcome) (env : Env) (s : Store) :
    (execute ctx elsewhere env (snapshotEntryToResp e) s).store = s.insert e.key
      ⟨e.valueOver (s[e.key]?.map Entry.value), e.expiryOver s[e.key]?⟩ := by
  rw [execute_of_requestOf (requestOf_entry hserves he), SnapshotEntry.run_request_over he]

variable (hreplay : ctx.isReplicaReplay = true)
include hreplay

/-- Executing entries of different keys changes these keys only. -/
theorem getElem?_applyLog_entries {elsewhere : Route → Store → Outcome} {envAt : ℕ → Env} :
    ∀ {l : List SnapshotEntry} {i : ℕ} {t : Store}, (l.map SnapshotEntry.key).Nodup →
      (∀ x ∈ l, x.elements ≠ []) → ∀ k,
      (applyLog ctx elsewhere envAt i (l.map snapshotEntryToResp) t)[k]? =
        match l.find? fun x => x.key = k with
        | some x => some ⟨x.valueOver (t[k]?.map Entry.value), x.expiryOver t[k]?⟩
        | none => t[k]?
  | [], _, _, _, _, _ => rfl
  | x :: l, i, t, hnd, hne, k => by
    rw [List.map_cons, List.nodup_cons] at hnd
    rw [List.forall_mem_cons] at hne
    rw [List.map_cons, applyLog, execute_entry (.inl hreplay) hne.1,
      getElem?_applyLog_entries hnd.2 hne.2 k, FinMap.getElem?_insert]
    by_cases heq : x.key = k
    · -- The key of `x` does not come again.
      have hnone : (l.find? fun y => y.key = k) = none := by
        rw [List.find?_eq_none]
        intro y hy hkey
        rw [decide_eq_true_eq] at hkey
        exact hnd.1 (List.mem_map.mpr ⟨y, hy, hkey.trans heq.symm⟩)
      simp [hnone, heq]
    · simp [heq]

/-- An empty store that executes the entries of every key of another one has its contents. -/
theorem applyLog_entries_same {elsewhere : Route → Store → Outcome} {envAt : ℕ → Env} {i : ℕ}
    {s : Store} (hexp : s.NoExpiry) (hval : s.Sendable) {l : List SnapshotEntry}
    (hl : s.SentBy l) :
    (applyLog ctx elsewhere envAt i (l.map snapshotEntryToResp) ∅).Same s := by
  have hnd : (l.map SnapshotEntry.key).Nodup := hl.keys.nodup_iff.mpr ExtTreeMap.nodup_keys
  have hne : ∀ x ∈ l, x.elements ≠ [] := fun x hx =>
    have ⟨_, _, _, hentry⟩ := hl.entry x hx
    SnapshotEntry.elements_ne_nil hentry
  have hat (k : String) :=
    @getElem?_applyLog_entries ctx hreplay elsewhere envAt l i ∅ hnd hne k
  refine ⟨funext fun k => ?_, fun k en hen => ?_, hexp⟩
  · rw [Store.contents, Store.contents, hat]
    cases hfind : l.find? fun x => x.key = k with
    | none =>
      have hnot : k ∉ s.keys := by
        rw [← hl.keys.mem_iff, List.mem_map]
        rintro ⟨x, hx, hkey⟩
        exact List.find?_eq_none.mp hfind x hx (by simpa using hkey)
      rw [ExtTreeMap.mem_keys, ExtTreeMap.mem_iff_isSome_getElem?, Option.not_isSome_iff_eq_none]
        at hnot
      simp [hnot]
    | some x =>
      obtain rfl : x.key = k := by simpa using List.find?_some hfind
      obtain ⟨env, e, he, hentry⟩ := hl.entry x (List.mem_of_find?_eq_some hfind)
      have hcontent := (SnapshotEntry.content_valueOver_eq_iff hentry none).mpr
        (SnapshotEntry.takesOver_none.mpr (hval _ e he).2)
      simp [he, hcontent]
  · rw [hat] at hen
    cases hfind : l.find? fun x => x.key = k with
    | none => simp [hfind] at hen
    | some x =>
      obtain rfl : _ = en := by simpa [hfind] using hen
      cases x <;> rfl

end Entries

/-- A frame of the snapshot can be replayed. -/
theorem replayable_entry {env : Env} {k : String} {v : Value} {e : SnapshotEntry}
    (he : snapshotEntry env k v = some e) : d.Replayable (snapshotEntryToResp e) := by
  refine ⟨_, requestOf_entry (.inl d.replica_replay) (SnapshotEntry.elements_ne_nil he), ?_⟩
  cases e <;> rfl

/-- The entries of a snapshot, for the keys of a list. -/
def entriesOf (env : Env) (s : Store) (ks : List String) : List SnapshotEntry :=
  ks.filterMap fun k => s[k]?.bind fun e => snapshotEntry env k e.value

theorem key_of_entry {env : Env} {s : Store} (k : String) (x : SnapshotEntry)
    (h : (s[k]?.bind fun e => snapshotEntry env k e.value) = some x) : x.key = k := by
  obtain ⟨e, -, hentry⟩ := Option.bind_eq_some_iff.mp h
  exact SnapshotEntry.key_of_snapshotEntry hentry

/-- The snapshot of a key, among those of the listed keys. -/
theorem find?_entriesOf (s : Store) (env : Env) (k : String) (ks : List String) :
    ((entriesOf env s ks).find? fun x => x.key = k) =
      if k ∈ ks then s[k]?.bind fun e => snapshotEntry env k e.value else none :=
  FinMap.find?_filterMap_key key_of_entry k ks

/-- Every entry is one of a key of the list, with something to send. -/
theorem of_mem_entriesOf {env : Env} {s : Store} {ks : List String} {x : SnapshotEntry}
    (h : x ∈ entriesOf env s ks) : x.key ∈ ks ∧
      ∃ e, s[x.key]? = some e ∧ snapshotEntry env x.key e.value = some x := by
  obtain ⟨k, hk, hx⟩ := List.mem_filterMap.mp h
  obtain ⟨e, he, hentry⟩ := Option.bind_eq_some_iff.mp hx
  obtain rfl := SnapshotEntry.key_of_snapshotEntry hentry
  exact ⟨hk, e, he, hentry⟩

/-- Without empty collections, every key of the list has an entry. -/
theorem map_key_entriesOf {s : Store} (hval : s.NoEmpty) (env : Env) :
    ∀ {ks : List String}, (∀ k ∈ ks, k ∈ s) → (entriesOf env s ks).map SnapshotEntry.key = ks
  | [], _ => rfl
  | k :: ks, hmem => by
    rw [List.forall_mem_cons] at hmem
    obtain ⟨e, he⟩ := Option.isSome_iff_exists.mp (ExtTreeMap.mem_iff_isSome_getElem?.mp hmem.1)
    obtain ⟨x, hx, -⟩ := @buildValueFrame_eq env k e.value (hval k e he)
    have ih := map_key_entriesOf hval env hmem.2
    unfold entriesOf at ih ⊢
    simp [he, hx, ih, SnapshotEntry.key_of_snapshotEntry hx]

/-- Executing the entries of some keys changes these keys only. -/
theorem getElem?_replay_entries {s : Store} (hval : s.NoEmpty) (env env' : Env)
    (ks : List String) {t : Store} (hnd : ks.Nodup) (hmem : ∀ k ∈ ks, k ∈ s) (k : String) :
    (d.replay env' ((entriesOf env s ks).map snapshotEntryToResp) t)[k]? =
      if k ∈ ks then
        (s[k]?.bind fun e => snapshotEntry env k e.value).map fun x =>
          ⟨x.valueOver (t[k]?.map Entry.value), x.expiryOver t[k]?⟩
      else t[k]? := by
  have hkeys := map_key_entriesOf hval env hmem
  have hne : ∀ x ∈ entriesOf env s ks, x.elements ≠ [] := fun x hx =>
    have ⟨_, _, hentry⟩ := (of_mem_entriesOf hx).2
    SnapshotEntry.elements_ne_nil hentry
  have hnd' : ((entriesOf env s ks).map SnapshotEntry.key).Nodup := by rwa [hkeys]
  rw [replay_eq_applyLog env' _ 0, getElem?_applyLog_entries d.replica_replay hnd' hne,
    find?_entriesOf]
  by_cases hk : k ∈ ks
  · obtain ⟨e, he⟩ := Option.isSome_iff_exists.mp
      (ExtTreeMap.mem_iff_isSome_getElem?.mp (hmem k hk))
    obtain ⟨x, hx, -⟩ := @buildValueFrame_eq env k e.value (hval k e he)
    simp [hk, he, hx]
  · simp [hk]

/-- Without expiries, all keys are listed. -/
theorem allKeys_perm {s : Store} (hexp : s.NoExpiry) (env : Env) :
    (s.allKeys env).Perm s.keys := by
  rw [allKeys, live_of_noExpiry hexp]
  exact env.keyOrder_perm _

/-- What the replica holds at a key after it has executed a snapshot. -/
theorem getElem?_replay_snapshot (d : Deployment) {s : Store} (hexp : s.NoExpiry) (hval : s.NoEmpty)
    (env env' : Env) (r : Store) (k : String) :
    (d.replay env' ((s.snapshot env).map snapshotEntryToResp) r)[k]? =
      match s[k]? with
      | none => r[k]?
      | some e => (snapshotEntry env k e.value).map fun x =>
          ⟨x.valueOver (r[k]?.map Entry.value), x.expiryOver r[k]?⟩ := by
  have hperm := allKeys_perm hexp env
  have hmem (k : String) : k ∈ s.allKeys env ↔ k ∈ s := by
    rw [hperm.mem_iff, ExtTreeMap.mem_keys]
  have hentries := getElem?_replay_entries (d := d) hval env env' (s.allKeys env) (t := r)
    (hperm.nodup_iff.mpr ExtTreeMap.nodup_keys) (fun k hk => (hmem k).mp hk) k
  refine hentries.trans ?_
  simp only [hmem, ExtTreeMap.mem_iff_isSome_getElem?]
  cases s[k]? <;> simp

/-- A snapshot sends each key once, with its value. -/
theorem sentBy_snapshot {s : Store} (hexp : s.NoExpiry) (hval : s.NoEmpty) (env : Env) :
    s.SentBy (s.snapshot env) := by
  have hperm := allKeys_perm hexp env
  have hmem : ∀ k ∈ s.allKeys env, k ∈ s := fun k hk =>
    ExtTreeMap.mem_keys.mp (hperm.mem_iff.mp hk)
  refine ⟨?_, fun x hx => ⟨env, (of_mem_entriesOf hx).2⟩⟩
  have hkeys := map_key_entriesOf hval env hmem
  exact (List.Perm.of_eq hkeys).trans hperm

/-- A replica that starts empty and replays a snapshot has the contents of the leader. -/
theorem replay_snapshot (d : Deployment) {s : Store} (hexp : s.NoExpiry) (hval : Sendable s)
    (env env' : Env) :
    (d.replay env' ((s.snapshot env).map snapshotEntryToResp) ∅).Same s := by
  rw [replay_eq_applyLog env' _ 0]
  exact applyLog_entries_same d.replica_replay hexp hval (sentBy_snapshot hexp hval.noEmpty env)

/-! ## Runs -/

/-- What holds in every state of a run with clean steps : once it is streaming, the replica
will have the contents of the leader when it has executed all that is on the way. -/
structure Inv (d : Deployment) (σ : SyncState) : Prop where
  leader_noExpiry : σ.leader.NoExpiry
  replica_noExpiry : σ.replica.NoExpiry
  pending_replayable : ∀ f ∈ σ.pending.toList, d.Replayable f
  channel_replayable : ∀ f ∈ σ.channel, d.Replayable f
  socket_replayable : ∀ f ∈ σ.socket, d.Replayable f
  before_streaming : σ.phase ≠ .streaming → σ.replica = ∅ ∧ σ.socket = []
  streaming : σ.phase = .streaming →
    (d.replay (.plain 0) (σ.socket ++ σ.doubled) σ.replica).Same σ.leader

/-- Nothing is due at the start. -/
theorem inv_start {s : Store} (hs : s.NoExpiry) : d.Inv (.start s) where
  leader_noExpiry := hs
  replica_noExpiry := same_empty.left
  pending_replayable := by simp [SyncState.start]
  channel_replayable := by simp [SyncState.start]
  socket_replayable := by simp [SyncState.start]
  before_streaming _ := ⟨rfl, rfl⟩
  streaming h := nomatch h

variable {σ τ : SyncState}

/-- A write is due until it is broadcast. -/
theorem inv_write {env : Env} {frame : Frame} (h : d.Inv σ)
    (hstep : d.step σ (.write env frame) = some τ) : d.Inv τ := by
  simp only [step] at hstep
  split at hstep
  · next hcond =>
    obtain ⟨hpending, hdet, hbroadcast⟩ := hcond
    obtain rfl := Option.some.inj hstep
    have hsame := onLeader_same hdet hbroadcast (Same.refl h.leader_noExpiry) env env
    refine ⟨hsame.right, h.replica_noExpiry, ?_, h.channel_replayable, h.socket_replayable,
      h.before_streaming, fun hphase => ?_⟩
    · simpa using replayable_of_write hdet hbroadcast
    · have hsofar := h.streaming hphase
      simp only [SyncState.doubled, hpending, Option.toList_none, List.append_nil] at hsofar
      simp only [SyncState.doubled, Option.toList_some]
      rw [← List.append_assoc, replay_append]
      exact onLeader_same hdet hbroadcast hsofar (.plain 0) env
  · cases hstep

/-- What is broadcast comes into the channel, or the snapshot has it. -/
theorem inv_broadcast (h : d.Inv σ) (hstep : d.step σ .broadcast = some τ) : d.Inv τ := by
  simp only [step] at hstep
  split at hstep
  · cases hstep
  · next f hpending =>
    obtain rfl := Option.some.inj hstep
    have hf : d.Replayable f := h.pending_replayable f (by simp [hpending])
    refine ⟨h.leader_noExpiry, h.replica_noExpiry, by simp, ?_, h.socket_replayable,
      h.before_streaming, fun hphase => ?_⟩
    · simp only
      split
      · exact h.channel_replayable
      · intro g hg
        rcases List.mem_append.mp hg with hg | hg
        · exact h.channel_replayable g hg
        · rw [List.mem_singleton.mp hg]
          exact hf
    · have hne : σ.phase ≠ .idle := by
        rw [show σ.phase = .streaming from hphase]
        exact fun heq => nomatch heq
      have hsofar := h.streaming hphase
      simpa [SyncState.doubled, hpending, hne] using hsofar

/-- The snapshot stands for the writes before it, which the channel must not hold. -/
theorem inv_snapshot {env : Env} (h : d.Inv σ) (hclean : d.Clean σ (.snapshot env))
    (hstep : d.step σ (.snapshot env) = some τ) : d.Inv τ := by
  simp only [step] at hstep
  split at hstep
  · next hphase =>
    obtain rfl := Option.some.inj hstep
    obtain ⟨hdoubled, hval⟩ := hclean
    obtain ⟨hreplica, hsocket⟩ := h.before_streaming (by rw [hphase]; exact fun heq => nomatch heq)
    have hframes : ∀ f ∈ (σ.leader.snapshot env).map snapshotEntryToResp, d.Replayable f := by
      intro f hf
      obtain ⟨e, he, rfl⟩ := List.mem_map.mp hf
      obtain ⟨k, -, hk⟩ := List.mem_filterMap.mp he
      obtain ⟨en, -, hen⟩ := Option.bind_eq_some_iff.mp hk
      exact replayable_entry hen
    refine ⟨h.leader_noExpiry, h.replica_noExpiry, h.pending_replayable, h.channel_replayable,
      ?_, fun hne => absurd rfl hne, fun _ => ?_⟩
    · simpa [hsocket] using hframes
    · have hboth : ∀ f ∈ σ.doubled, d.Replayable f := by
        intro f hf
        rcases List.mem_append.mp hf with hf | hf
        · exact h.channel_replayable f hf
        · exact h.pending_replayable f hf
      -- The snapshot gives the contents of the leader, and the doubled writes leave them.
      have hsnap := replay_same hboth (replay_snapshot d h.leader_noExpiry hval env (.plain 0))
        (.plain 0) (.plain 0)
      have hleader : (d.replay (.plain 0) σ.doubled σ.leader).Same σ.leader :=
        ⟨hdoubled, hsnap.right, h.leader_noExpiry⟩
      simp only [hsocket, hreplica, List.nil_append]
      rw [replay_append]
      exact hsnap.trans hleader
  · cases hstep

/-- A frame moves from the channel to the socket. -/
theorem inv_forward (h : d.Inv σ) (hstep : d.step σ .forward = some τ) : d.Inv τ := by
  simp only [step] at hstep
  split at hstep
  · next f rest hphase hchannel =>
    obtain rfl := Option.some.inj hstep
    have hall := h.channel_replayable
    rw [hchannel, List.forall_mem_cons] at hall
    refine ⟨h.leader_noExpiry, h.replica_noExpiry, h.pending_replayable, hall.2, ?_,
      fun hne => absurd hphase hne, fun _ => ?_⟩
    · intro g hg
      rcases List.mem_append.mp hg with hg | hg
      · exact h.socket_replayable g hg
      · rw [List.mem_singleton.mp hg]
        exact hall.1
    · have hsofar := h.streaming hphase
      simpa [SyncState.doubled, hchannel] using hsofar
  · cases hstep

/-- The replica executes what comes next. -/
theorem inv_apply {env : Env} (h : d.Inv σ) (hstep : d.step σ (.apply env) = some τ) : d.Inv τ := by
  simp only [step] at hstep
  split at hstep
  · next f rest hsocket =>
    obtain rfl := Option.some.inj hstep
    have hall := h.socket_replayable
    rw [hsocket, List.forall_mem_cons] at hall
    have hsame := onReplica_same hall.1 (Same.refl h.replica_noExpiry) env (.plain 0)
    have hphase : σ.phase = .streaming := by
      by_contra hne
      have hnil := (h.before_streaming hne).2
      rw [hsocket] at hnil
      cases hnil
    refine ⟨h.leader_noExpiry, hsame.left, h.pending_replayable, h.channel_replayable, hall.2,
      fun hne => absurd hphase hne, fun _ => ?_⟩
    have hrest : ∀ g ∈ rest ++ σ.doubled, d.Replayable g := by
      intro g hg
      rcases List.mem_append.mp hg with hg | hg
      · exact hall.2 g hg
      · rcases List.mem_append.mp hg with hg | hg
        · exact h.channel_replayable g hg
        · exact h.pending_replayable g hg
    have hsofar := h.streaming hphase
    rw [hsocket] at hsofar
    exact (replay_same hrest hsame (.plain 0) (.plain 0)).trans hsofar
  · cases hstep

/-- Every clean step keeps the invariant. -/
theorem inv_step {ev : SyncEvent} (h : d.Inv σ) (hclean : d.Clean σ ev)
    (hstep : d.step σ ev = some τ) : d.Inv τ := by
  cases ev with
  | write env frame => exact inv_write h hstep
  | broadcast => exact inv_broadcast h hstep
  | subscribe =>
    simp only [step] at hstep
    split at hstep
    · next hphase =>
      obtain rfl := Option.some.inj hstep
      exact ⟨h.leader_noExpiry, h.replica_noExpiry, h.pending_replayable, h.channel_replayable,
        h.socket_replayable,
        fun _ => h.before_streaming (by rw [hphase]; exact fun heq => nomatch heq),
        fun heq => nomatch heq⟩
    · cases hstep
  | snapshot env => exact inv_snapshot h hclean hstep
  | forward => exact inv_forward h hstep
  | apply env => exact inv_apply h hstep

/-- In every run whose snapshot is clean, a replica that has executed all that was sent has
the contents of the leader. -/
theorem full_sync_exactly_once (d : Deployment) {s : Store} (hs : s.NoExpiry) {σ : SyncState}
    (hrun : Runs.Run d.step d.Clean (.start s) σ) (hsettled : σ.Settled) :
    σ.replica.contents = σ.leader.contents := by
  have hinv : d.Inv σ := hrun.invariant (fun _ _ _ h hclean hstep => inv_step h hclean hstep)
    (inv_start hs)
  obtain ⟨hphase, hpending, hchannel, hsocket⟩ := hsettled
  have hsame := hinv.streaming hphase
  rw [SyncState.doubled, hsocket, hchannel, hpending] at hsame
  exact hsame.contents

end Deployment

section Failing

/-- A leader and its follower. -/
def smallDeployment : Deployment where
  leader := .standalone
  replica := { CommandContext.standalone with
    isLeader := false
    leaderAddr := some "leader:6379"
    isReplicaReplay := true }
  leader_raft := rfl
  leader_cluster := rfl
  replica_raft := rfl
  replica_cluster := rfl
  replica_replay := rfl

/-- The string at a key. -/
def stringAt (s : Store) (k : String) : Option Bytes :=
  match s[k]? with
  | some ⟨.string b, _⟩ => some b
  | _ => none

theorem stringAt_congr_at {s t : Store} {k : String} (hk : s.contents k = t.contents k) :
    stringAt s k = stringAt t k := by
  unfold Store.contents at hk
  unfold stringAt
  cases hs : s[k]? with
  | none =>
    rw [hs, Option.map_none, eq_comm, Option.map_eq_none_iff] at hk
    rw [hk]
  | some e =>
    cases ht : t[k]? with
    | none => simp [hs, ht] at hk
    | some e' =>
      obtain ⟨v, x⟩ := e
      obtain ⟨w, y⟩ := e'
      have hvw : v.content = w.content := by simpa [hs, ht] using hk
      cases v <;> cases w <;> simp_all [Value.content]

theorem stringAt_congr {s t : Store} (h : s.contents = t.contents) (k : String) :
    stringAt s k = stringAt t k :=
  stringAt_congr_at (congrFun h k)

/-- Nothing is under way. -/
def SyncState.isSettled (σ : SyncState) : Bool :=
  σ.phase = .streaming && σ.pending.isNone && σ.channel.isEmpty && σ.socket.isEmpty

theorem SyncState.settled_of_isSettled {σ : SyncState} (h : σ.isSettled = true) : σ.Settled := by
  simpa [isSettled, Settled, and_assoc] using h

/-- An `INCR` between the subscription and the snapshot, on an empty store. -/
def incrTwice : List SyncEvent :=
  [.subscribe, .write (.plain 0) (.command ["INCR", "k"]), .broadcast, .snapshot (.plain 0),
    .forward, .apply (.plain 0), .apply (.plain 0)]

/-- The replica executes `SET k 1` of the snapshot and `INCR k` of the stream. -/
theorem full_sync_applies_twice :
    ∃ σ, Runs.Run smallDeployment.step (fun _ _ => True) (.start ∅) σ ∧ σ.Settled ∧
      σ.replica.contents ≠ σ.leader.contents := by
  have hrun : (Runs.exec smallDeployment.step (fun _ _ => True) (.start ∅) incrTwice).any
      (fun σ => σ.isSettled && stringAt σ.leader "k" ≠ stringAt σ.replica "k") = true := by
    decide +kernel
  obtain ⟨σ, hσ, hp⟩ := Runs.exists_run_of_exec hrun
  rw [Bool.and_eq_true, decide_eq_true_eq] at hp
  exact ⟨σ, hσ, SyncState.settled_of_isSettled hp.1, fun heq => hp.2 (stringAt_congr heq.symm "k")⟩

/-- The same write after the snapshot. -/
def incrOnce : List SyncEvent :=
  [.subscribe, .snapshot (.plain 0), .write (.plain 0) (.command ["INCR", "k"]), .broadcast,
    .forward, .apply (.plain 0)]

/-- A snapshot of an empty store with nothing on the way. -/
def quietSnapshot (σ : SyncState) : SyncEvent → Bool
  | .snapshot _ => σ.doubled.isEmpty && σ.leader.isEmpty
  | _ => true

theorem clean_of_quietSnapshot (d : Deployment) {σ : SyncState} {ev : SyncEvent}
    (h : quietSnapshot σ ev = true) : d.Clean σ ev := by
  cases ev with
  | snapshot env =>
    rw [quietSnapshot, Bool.and_eq_true, List.isEmpty_iff] at h
    refine ⟨by rw [h.1]; rfl, fun k e he => ?_⟩
    rw [ExtTreeMap.isEmpty_iff.mp h.2] at he
    simp at he
  | _ => trivial

/-- An `INCR` after the snapshot is executed once. -/
theorem full_sync_once_incr : ∃ σ : SyncState, σ.Settled ∧
    stringAt σ.leader "k" = some (Utf8.toBytes "1") ∧
      σ.replica.contents = σ.leader.contents := by
  have hrun : (Runs.exec smallDeployment.step (fun σ ev => quietSnapshot σ ev = true) (.start ∅)
      incrOnce).any (fun σ => σ.isSettled && stringAt σ.leader "k" = some (Utf8.toBytes "1")) =
        true := by
    decide
  obtain ⟨σ, hσ, hp⟩ := Runs.exists_run_of_exec hrun
  rw [Bool.and_eq_true, decide_eq_true_eq] at hp
  have hsettled := SyncState.settled_of_isSettled hp.1
  exact ⟨σ, hsettled, hp.2, Deployment.full_sync_exactly_once smallDeployment Store.same_empty.left
    (hσ.mono fun _ _ => clean_of_quietSnapshot _) hsettled⟩

end Failing

end LoonyRedis
