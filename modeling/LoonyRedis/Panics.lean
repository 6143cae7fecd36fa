import LoonyRedis.CheckedCluster
import LoonyRedis.CheckedRequests
import LoonyRedis.Replies

/-!
# Which requests make the server panic

`execute` reads the arguments of a frame, routes it, and runs the request or calls another node.
`Handling.executeChecked` does this with each operation checked that may panic, in a build with
overflow checks, and `Handling.Safe` is the condition on the frame and the state of the server
that none of them fails. `Server.execute_returns_iff` says that in every state that a server
reaches, `execute` returns exactly under this condition.

A server that was started with a configuration that was built keeps one (`Server.Started.step`),
so that what is looked up in its table is there. What is left are numbers that a client sends
(ends of windows, counts, times and differences), node lists, and what other nodes answer to a
command that calls them : an answer may announce an array that there is no room for.
-/

namespace LoonyRedis

open Checked Reading

/-! ## Reading the arguments -/

/-- The commands that slice their arguments or subtract from their number : the number of
arguments that they ask for before, and where the slice starts. -/
def sliceTable : List (String × ℕ × ℕ) :=
  [("DEL", 2, 1), ("EXISTS", 2, 1), ("MGET", 2, 1), ("MSET", 3, 1), ("LPUSH", 3, 2),
    ("RPUSH", 3, 2), ("HSET", 4, 2), ("HMSET", 4, 2), ("HMGET", 3, 2), ("HDEL", 3, 2),
    ("SADD", 3, 2), ("SREM", 3, 2), ("SUNION", 2, 1), ("SINTER", 2, 1), ("SDIFF", 2, 1),
    ("SUNIONSTORE", 3, 2), ("SINTERSTORE", 3, 2), ("SDIFFSTORE", 3, 2), ("ZREM", 3, 2),
    ("ZRANGE", 4, 4), ("ZREVRANGE", 4, 4), ("ZRANGEBYSCORE", 4, 4), ("ZREVRANGEBYSCORE", 4, 4)]

/-- The slice of the arguments that a handler takes, if it takes one, after the check of their
number. -/
def slicesChecked (name : String) (args : List Frame) : Option Unit :=
  match sliceTable.lookup name with
  | none => some ()
  | some (least, start) =>
    if args.length < least then some () else (sliceFrom args start).map fun _ => ()

/-- `n * sign`, once the arguments are read. -/
def cmdIncrbyByChecked (sign : ℤ) (args : List Frame) : Option Reading :=
  if args.length = 3 ∧ bulkAsStr args 1 ≠ none then
    match bulkAsI64 args 2 with
    | some n => (i64 (n.1 * sign)).map fun _ => cmdIncrbyBy sign args
    | none => some (cmdIncrbyBy sign args)
  else some (cmdIncrbyBy sign args)

/-- The number 2 ^ 64. -/
def twoPow64 : F64 := F64.make false (1087 * 2 ^ 52)

/-- The numbers that are a duration in seconds : they are not negative, and less than 2 ^ 64. No
comparison holds of a number that is none. -/
def IsDuration (secs : F64) : Prop := secs.lt F64.zero = false ∧ secs.lt twoPow64 = true

/-- Both ends are compared. -/
instance (secs : F64) : Decidable (IsDuration secs) := inferInstanceAs (Decidable (_ ∧ _))

/-- `Duration::from_secs_f64`. -/
def durationFromSecs (secs : F64) : Option Unit := if IsDuration secs then some () else none

/-- The seconds of `DEBUG SLEEP`. -/
def sleepSecs (args : List Frame) : F64 := ((bulkAsStr args 2).bind F64.parse).getD F64.zero

/-- `DEBUG`, with the duration of `SLEEP` and the tables of `CLUSTER` checked. -/
def cmdDebugChecked (ctx : CommandContext) (args : List Frame) : Option Reading :=
  let sub := (bulkAsStr args 1).map Text.toUppercase
  if sub = some "SLEEP" then (durationFromSecs (sleepSecs args)).map fun _ => cmdDebug ctx args
  else if sub = some "CLUSTER" then
    match ctx.cluster with
    | some cfg => (reportChecked cfg).map fun _ => cmdDebug ctx args
    | none => some (cmdDebug ctx args)
  else some (cmdDebug ctx args)

/-- The reading of the arguments, with the slices, the products and the durations checked. -/
def readCommandChecked (ctx : CommandContext) (name : String) (args : List Frame) :
    Option Reading := do
  slicesChecked name args
  if name = "INCRBY" then cmdIncrbyByChecked 1 args
  else if name = "DECRBY" then cmdIncrbyByChecked (-1) args
  else if name = "DEBUG" then cmdDebugChecked ctx args
  else return readCommand ctx name args

/-- The least integer has no negative. -/
def CanNegate (args : List Frame) : Prop :=
  args.length = 3 → bulkAsStr args 1 ≠ none → ∀ n, bulkAsI64 args 2 = some n → n.1 ≠ Text.i64Min

/-- Nothing panics while the arguments of a command are read. -/
def Readable (name : String) (args : List Frame) : Prop :=
  (name = "DECRBY" → CanNegate args) ∧
  (name = "DEBUG" → (bulkAsStr args 1).map Text.toUppercase = some "SLEEP" →
    IsDuration (sleepSecs args))

section Reading

variable {ctx : CommandContext} {name : String} {args : List Frame}

/-- The numbers of arguments are checked before they are cut. -/
theorem slicesChecked_eq (name : String) (args : List Frame) :
    slicesChecked name args = some () := by
  have hstart : ∀ p ∈ sliceTable, p.2.2 ≤ p.2.1 := by decide
  unfold slicesChecked
  cases hlookup : sliceTable.lookup name with
  | none => rfl
  | some p =>
    obtain ⟨l, l', hl, -⟩ := List.lookup_eq_some_iff.mp hlookup
    have hle : p.2 ≤ p.1 := hstart (name, p) (by rw [hl]; simp)
    simp only
    split
    · rfl
    · rw [sliceFrom_eq (by omega)]
      rfl

theorem cmdIncrbyByChecked_one (args : List Frame) :
    cmdIncrbyByChecked 1 args = some (cmdIncrbyBy 1 args) := by
  unfold cmdIncrbyByChecked
  split
  · split
    · next n _ =>
      have hn := n.2
      simp only [Text.i64Min, Text.i64Max] at hn
      rw [i64_eq (by omega) (by omega)]
      rfl
    · rfl
  · rfl

/-- `DECRBY` returns if its number has a negative. -/
theorem returns_cmdDecrby (args : List Frame) :
    Returns (cmdIncrbyByChecked (-1) args) (CanNegate args) (cmdIncrbyBy (-1) args) := by
  unfold cmdIncrbyByChecked CanNegate
  split
  · next hread =>
    split
    · next n hn =>
      refine ((returns_i64 _).map _).congr ?_
      have hrange := n.2
      simp only [Text.i64Min, Text.i64Max] at hrange
      simp only [hn, Option.some.injEq, forall_eq', Text.i64Min]
      constructor
      · intro h _ _
        omega
      · intro h
        have hne := h hread.1 hread.2
        omega
    · next hnone => exact (Returns.of_eq rfl).congr (by simp [hnone])
  · next hread =>
    exact (Returns.of_eq rfl).congr (iff_of_true trivial fun h h' => absurd ⟨h, h'⟩ hread)

/-- `DEBUG` returns if `SLEEP` is given a duration. -/
theorem returns_cmdDebug (hcluster : ∀ cfg ∈ ctx.cluster, cfg.Built) :
    Returns (cmdDebugChecked ctx args)
      ((bulkAsStr args 1).map Text.toUppercase = some "SLEEP" → IsDuration (sleepSecs args))
      (cmdDebug ctx args) := by
  unfold cmdDebugChecked
  generalize (bulkAsStr args 1).map Text.toUppercase = sub
  simp only
  split
  · next hsub => exact (returns_if.map _).congr (by simp [hsub])
  · next hsub =>
    refine (Returns.of_eq ?_).congr (iff_of_true trivial fun h => absurd h hsub)
    split
    · split
      · next cfg hcfg =>
        rw [reportChecked_eq (hcluster cfg hcfg)]
        rfl
      · rfl
    · rfl

/-- The arguments are read if the command is readable. -/
theorem returns_readCommand (hcluster : ∀ cfg ∈ ctx.cluster, cfg.Built) :
    Returns (readCommandChecked ctx name args) (Readable name args)
      (readCommand ctx name args) := by
  refine .bind_eq (slicesChecked_eq name args) ?_
  unfold Readable
  split
  · next hname =>
    subst hname
    exact (Returns.of_eq (cmdIncrbyByChecked_one args)).congr (by simp)
  · split
    · next hname =>
      subst hname
      exact (returns_cmdDecrby args).congr (by simp)
    · split
      · next hname =>
        subst hname
        exact (returns_cmdDebug hcluster).congr (by simp)
      · next hdecr hdebug =>
        exact (Returns.of_eq rfl).congr (by simp [hdecr, hdebug])

/-- The integers of a request come from 64 bits. -/
theorem intsFit_commandTable (ctx : CommandContext) (args : List Frame) :
    ∀ p ∈ commandTable ctx, All Request.IntsFit (p.2 args) := by
  have hwindow {cmd : String} {req : String → ℤ → ℤ → Request} {arity : ℕ → Bool}
      (h : ∀ k a b, IsI64 a → IsI64 b → (req k a b).IntsFit) :
      All Request.IntsFit (windowCommand cmd req arity args) :=
    all_bind fun _ => all_bind fun _ => all_bind fun a => all_bind fun b => h _ _ _ a.2 b.2
  have hlrange : All Request.IntsFit (cmdLrange args) :=
    all_bind fun _ => all_bind fun _ => all_bind fun a => all_bind fun b => ⟨a.2, b.2⟩
  have hlindex : All Request.IntsFit (cmdLindex args) :=
    all_bind fun _ => all_bind fun _ => all_bind fun a => a.2
  have hlset : All Request.IntsFit (cmdLset args) :=
    all_bind fun _ => all_bind fun _ => all_bind fun a => all_bind fun _ => a.2
  have hltrim : All Request.IntsFit (cmdLtrim args) := hwindow fun _ _ _ ha hb => ⟨ha, hb⟩
  have hzrange : All Request.IntsFit (cmdZrange args) := hwindow fun _ _ _ ha hb => ⟨ha, hb⟩
  have hzrevrange : All Request.IntsFit (cmdZrevrange args) := hwindow fun _ _ _ ha hb => ⟨ha, hb⟩
  have hzrem : All Request.IntsFit (cmdZremrangebyrank args) :=
    hwindow fun _ _ _ ha hb => ⟨ha, hb⟩
  have hdebug : All Request.IntsFit (cmdDebug ctx args) :=
    all_debug (fun _ => trivial) fun _ => trivial
  simp only [commandTable, List.forall_mem_cons]
  and_intros
  all_goals first
    | with_reducible assumption
    | (repeat refine all_bind fun _ => ?_); trivial
    | exact fun _ h => False.elim (List.not_mem_nil h)

end Reading

/-! ## Routing -/

/-- The buffer for the command name, with zeros after the end of a short name. -/
def upperBuf (cmd : Bytes) : Bytes :=
  (cmd.take 32).map Text.toAsciiUppercase ++ List.replicate (32 - cmd.length) 0

/-- `commandName`, with the slice of the buffer checked. -/
def commandNameChecked (cmd : Bytes) : Option String :=
  (sliceTo (upperBuf cmd) (min cmd.length 32)).map fun b => (Utf8.fromUtf8 b).getD ""

/-- `clusterRoute`, with the table indexed. -/
def clusterRouteChecked (cfg : TableConfig) (name : String) (args : List Frame) :
    Option (Option Route) := do
  match ← commandSlotChecked name args with
  | .crossSlot =>
    return some (.reply (.error "CROSSSLOT Keys in request don't hash to the same slot"))
  | .slot slot =>
    if ← cfg.isMine slot then return none
    else return some (.proxy (← cfg.nodeForSlot slot) args)
  | .none => return none

/-- `routeCommand`, with the checks of the cluster. -/
def routeCommandChecked (ctx : CommandContext) (name : String) (args : List Frame) :
    Option Route :=
  match ctx.isReplicaReplay, isWrite name, ctx.raft, ctx.cluster with
  | false, true, some raft, _ =>
    if raft.isLeader then some (.propose args)
    else
      let leader := raft.currentLeader.getD ""
      some (.reply (.error s!"MOVED {leader}"))
  | false, _, _, some cfg =>
    if name = "CLUSTER" then some (routeHere ctx name args)
    else (clusterRouteChecked cfg.withTable name args).map (·.getD (routeHere ctx name args))
  | _, _, _, _ => some (routeHere ctx name args)

/-- `route`, with the checks of the name and of the cluster. -/
def routeChecked (ctx : CommandContext) : Frame → Option Route
  | .array (some []) => some (.reply (.error "ERR empty command"))
  | .array (some args) =>
    match bulkBytes args 0 with
    | none => some (.reply (.error "ERR invalid command name"))
    | some cmd => do routeCommandChecked ctx (← commandNameChecked cmd) args
  | _ => some (.reply (.error "ERR invalid command format"))

section Routing

variable {ctx : CommandContext} {cfg : ClusterConfig}

/-- The buffer of a command name is never cut outside of its 32 bytes. -/
theorem commandNameChecked_eq (cmd : Bytes) : commandNameChecked cmd = some (commandName cmd) := by
  have hlen : ((cmd.take 32).map Text.toAsciiUppercase).length = min cmd.length 32 := by
    rw [List.length_map, List.length_take, Nat.min_comm]
  have htake : (upperBuf cmd).take (min cmd.length 32) =
      (cmd.take 32).map Text.toAsciiUppercase := by
    rw [← hlen, upperBuf, List.take_left]
  have hle : min cmd.length 32 ≤ (upperBuf cmd).length := by
    rw [← hlen, upperBuf, List.length_append]
    omega
  rw [commandNameChecked, sliceTo_eq hle, htake]
  rfl

/-- The slot of a command is one of the table. -/
theorem commandSlot_lt {name : String} {args : List Frame} {slot : ℕ}
    (h : commandSlot name args = .slot slot) : slot < numSlots := by
  have hstride {start stride : ℕ} (h : allSameSlot args start stride = .slot slot) :
      slot < numSlots := by
    rw [allSameSlot, strideSlots_eq_map] at h
    cases hkeys : strideKeys args start stride with
    | nil => simp [hkeys] at h
    | cons key keys =>
      simp only [hkeys, List.map_cons] at h
      split at h
      · obtain rfl : slotForKey key = slot := by simpa using h
        exact slotForKey_lt key
      · cases h
  unfold commandSlot singleKeySlot at h
  split at h
  · split at h
    · next key _ =>
      obtain rfl : slotForKey key = slot := by simpa using h
      exact slotForKey_lt key
    · cases h
  · split at h
    · exact hstride h
    · split at h
      · exact hstride h
      · cases h

/-- The owner of a command is always found. -/
theorem clusterRouteChecked_eq (hcfg : cfg.Built) (name : String) (args : List Frame) :
    clusterRouteChecked cfg.withTable name args = some (clusterRoute cfg name args) := by
  rw [clusterRouteChecked, commandSlotChecked_eq, clusterRoute]
  cases hslot : commandSlot name args with
  | none => rfl
  | crossSlot => rfl
  | slot slot =>
    simp only [Option.bind_eq_bind, Option.bind_some, hcfg.isMine_eq (commandSlot_lt hslot),
      hcfg.nodeForSlot_eq (commandSlot_lt hslot)]
    cases cfg.isMine slot <;> rfl

/-- Routing never panics, command by command. -/
theorem routeCommandChecked_eq (hcluster : ∀ cfg ∈ ctx.cluster, cfg.Built) (name : String)
    (args : List Frame) :
    routeCommandChecked ctx name args = some (routeCommand ctx name args) := by
  unfold routeCommandChecked routeCommand
  cases hcfg : ctx.cluster with
  | none =>
    cases ctx.isReplicaReplay with
    | true => rfl
    | false =>
      cases isWrite name with
      | false => rfl
      | true =>
        cases ctx.raft with
        | none => rfl
        | some raft => exact (apply_ite some _ _ _).symm
  | some cfg =>
    have hhere : (if name = "CLUSTER" then some (routeHere ctx name args)
        else (clusterRouteChecked cfg.withTable name args).map (·.getD (routeHere ctx name args))) =
        some (if name = "CLUSTER" then routeHere ctx name args
          else (clusterRoute cfg name args).getD (routeHere ctx name args)) := by
      rw [clusterRouteChecked_eq (hcluster cfg hcfg), apply_ite some]
      rfl
    cases ctx.isReplicaReplay with
    | true => rfl
    | false =>
      cases isWrite name with
      | false => exact hhere
      | true =>
        cases ctx.raft with
        | none => exact hhere
        | some raft => exact (apply_ite some _ _ _).symm

/-- Routing never panics. -/
theorem routeChecked_eq (hcluster : ∀ cfg ∈ ctx.cluster, cfg.Built) :
    ∀ frame, routeChecked ctx frame = some (route ctx frame)
  | .array (some []) => rfl
  | .array (some (f :: args)) => by
    simp only [routeChecked, route]
    cases bulkBytes (f :: args) 0 with
    | none => rfl
    | some cmd =>
      simp only [commandNameChecked_eq, Option.bind_eq_bind, Option.bind_some]
      exact routeCommandChecked_eq hcluster _ _
  | .array none => rfl
  | .simpleString _ => rfl
  | .error _ => rfl
  | .integer _ => rfl
  | .bulk _ => rfl

end Routing

/-! ## Execution -/

/-- What `execute` reads and changes : the store, and the configuration of a cluster node. -/
structure Server where
  store : Store
  cluster : Option ClusterConfig

/-- A frame that is executed, and all that comes from outside meanwhile : the context but for the
configuration, whether there is an append-only file, the answers of other nodes, and the reply of
the Raft log to a write. -/
structure Handling where
  frame : Frame
  ctx : CommandContext
  env : Env
  aof : Bool
  net : Net
  proposed : Frame

/-- This node alone. Its calls of other nodes leave it as it is, so that its address is not
needed. -/
def Server.world (s : Server) : World := fun _ => s.cluster.map fun cfg => ⟨s.store, cfg⟩

/-- The server after a call that has changed the world. -/
def Server.ofWorld (s : Server) (w : World) : Server :=
  match w "" with
  | some n => ⟨n.store, some n.config⟩
  | none => s

namespace Handling

variable (S : Sizes) (h : Handling) (s : Server)

/-- The context of the call, with the server's own cluster. -/
def context : CommandContext := { h.ctx with cluster := s.cluster }

/-- `CLUSTER` and `MIGRATE`. Outside of a cluster, `MIGRATE` has the configuration of no node. -/
def remoteChecked (name : String) (args : List Frame) : Option (Frame × Server) :=
  let rows := h.ctx.health.getD []
  if name = "CLUSTER" then
    match s.cluster with
    | none =>
      let sub := ((bulkAsStr args 1).map Text.toUppercase).getD ""
      (if sub = "KEYSLOT" then (bulkBytes args 2).mapM slotForKeyChecked else some none).map
        fun _ => (cmdClusterDisabled h.ctx.health args, s)
    | some cfg => (cmdClusterChecked S h.net h.env "" cfg args rows s.world).map
        fun r => (r.1, s.ofWorld r.2)
  else
    (cmdMigrateChecked S h.net h.env "" args s.store fun _ =>
      some ⟨s.store, s.cluster.getD (.forRouting [])⟩).map fun r =>
        (r.1, { s with store := (r.2 "").elim ∅ ClusterNode.store })

/-- What `CLUSTER` and `MIGRATE` do, without checks. -/
def remote (name : String) (args : List Frame) : Frame × Server :=
  let rows := h.ctx.health.getD []
  if name = "CLUSTER" then
    match s.cluster with
    | none => (cmdClusterDisabled h.ctx.health args, s)
    | some cfg =>
      let r := cmdCluster h.net.rpc h.env "" cfg args rows s.world
      (r.1, s.ofWorld r.2)
  else
    let r := cmdMigrate h.net.rpc h.env "" args s.store fun _ =>
      some ⟨s.store, s.cluster.getD (.forRouting [])⟩
    (r.1, { s with store := (r.2 "").elim ∅ ClusterNode.store })

/-- Read the arguments and run the request, with the checks of both. -/
def dispatchChecked (name : String) (args : List Frame) : Option Outcome := do
  match ← readCommandChecked (h.context s) name args with
  | .ok r => r.runChecked S h.aof (h.context s) h.env s.store
  | .error f => return ⟨f, s.store, []⟩

/-- Execute a frame with the checks of all its parts; nothing is a panic. -/
def executeChecked : Option (Frame × Server) := do
  match ← routeChecked (h.context s) h.frame with
  | .reply f => return (f, s)
  | .propose _ => return (h.proposed, s)
  | .proxy target args => return (← proxyToChecked S h.net target (.array (some args)), s)
  | .remote name args => h.remoteChecked S s name args
  | .dispatch name args =>
    (h.dispatchChecked S s name args).map fun o => (o.reply, { s with store := o.store })

/-- What `executeChecked` returns, unless an operation panics. -/
def execute : Frame × Server :=
  match route (h.context s) h.frame with
  | .reply f => (f, s)
  | .propose _ => (h.proposed, s)
  | .proxy target args =>
    let x := h.net target (.array (some args))
    (x.answer.getD (x.proxyError target), s)
  | .remote name args => h.remote s name args
  | .dispatch name args =>
    let o := dispatch (h.context s) h.env name args s.store
    (o.reply, { s with store := o.store })

/-- None of the operations of a command that is dispatched fails. -/
def DispatchSafe (name : String) (args : List Frame) : Prop :=
  Readable name args ∧
    ∀ r, readCommand (h.context s) name args = .ok r → r.Safe S h.aof h.env s.store

/-- None of the operations of `CLUSTER` and of `MIGRATE` fails : the node lists have tables, and
the answers that are read of other nodes can be parsed. -/
def RemoteSafe (name : String) (args : List Frame) : Prop :=
  if name = "CLUSTER" then
    ∀ cfg ∈ s.cluster, cfg.Accepts args ∧ cfg.Parses S h.net h.env "" args s.world
  else MigrateParses S h.net h.env args s.store

/-- None of the operations for the frame fails. -/
def Safe : Prop :=
  match route (h.context s) h.frame with
  | .proxy target args => (h.net target (.array (some args))).Parses S.frame
  | .remote name args => h.RemoteSafe S s name args
  | .dispatch name args => h.DispatchSafe S s name args
  | _ => True

end Handling

section Execution

variable {S : Sizes} {h : Handling} {s : Server}

theorem intsFit_of_readCommand {ctx : CommandContext} {name : String} {args : List Frame}
    {r : Request} (hr : readCommand ctx name args = .ok r) : r.IntsFit :=
  @of_readCommand (fun _ r => r.IntsFit) _ _ (intsFit_commandTable ctx args) _ _ hr

/-- A dispatched command returns if it is safe. -/
theorem returns_dispatch (hcluster : ∀ cfg ∈ s.cluster, cfg.Built) (hfits : s.store.Fits S)
    (name : String) (args : List Frame) :
    Returns (h.dispatchChecked S s name args) (h.DispatchSafe S s name args)
      (dispatch (h.context s) h.env name args s.store) := by
  refine (returns_readCommand hcluster).bind fun _ => ?_
  unfold dispatch
  cases hread : readCommand (h.context s) name args with
  | error f => exact (Returns.of_eq rfl).congr (by simp)
  | ok r =>
    refine (Request.returns_runChecked hcluster hfits (intsFit_of_readCommand hread)).congr ?_
    simp

/-- `CLUSTER` and `MIGRATE` return if they are safe. -/
theorem returns_remote (hcluster : ∀ cfg ∈ s.cluster, cfg.Built) (name : String)
    (args : List Frame) :
    Returns (h.remoteChecked S s name args) (h.RemoteSafe S s name args)
      (h.remote s name args) := by
  unfold Handling.remoteChecked Handling.remote Handling.RemoteSafe
  by_cases hname : name = "CLUSTER"
  · simp only [hname, if_true]
    cases hcfg : s.cluster with
    | none =>
      refine (Returns.of_eq ?_).congr (by simp)
      have hslot : (bulkBytes args 2).mapM slotForKeyChecked =
          some ((bulkBytes args 2).map slotForKey) := by
        cases bulkBytes args 2 with
        | none => rfl
        | some k => simp
      simp only [hslot]
      by_cases hsub : ((bulkAsStr args 1).map Text.toUppercase).getD "" = "KEYSLOT"
      · rw [if_pos hsub]
        rfl
      · rw [if_neg hsub]
        rfl
    | some cfg =>
      have hbuilt := hcluster cfg hcfg
      exact ((returns_cmdCluster hbuilt _ _).map _).congr (by simp)
  · simp only [hname, if_false]
    exact (returns_cmdMigrate _ _).map _

/-- A frame is executed without a panic exactly if none of the operations for it fails. -/
theorem returns_execute (hcluster : ∀ cfg ∈ s.cluster, cfg.Built) (hfits : s.store.Fits S) :
    Returns (h.executeChecked S s) (h.Safe S s) (h.execute s) := by
  refine .bind_eq (routeChecked_eq hcluster h.frame) ?_
  unfold Handling.Safe Handling.execute
  cases route (h.context s) h.frame with
  | reply f => exact .of_eq rfl
  | propose args => exact .of_eq rfl
  | proxy target args => exact (returns_proxyTo target _).bind_some rfl
  | remote name args => exact returns_remote hcluster name args
  | dispatch name args => exact (returns_dispatch hcluster hfits name args).map _

end Execution

/-! ## Runs of a server -/

/-- What happens on a server : a frame is executed, or the store changes in the background, when
keys expire or a leader sends all of its data. -/
inductive ServerEvent where
  | execute (h : Handling)
  | background (store : Store)

namespace Server

/-- There is no step if an operation panics. -/
def step (S : Sizes) (s : Server) : ServerEvent → Option Server
  | .execute h => (h.executeChecked S s).map Prod.snd
  | .background store => some { s with store := store }

/-- The values are in the memory of this node, whatever happens next. -/
def InMemory (S : Sizes) (s : Server) (_ : ServerEvent) : Prop := s.store.Fits S

/-- If the server is a node of a cluster, it is started with a configuration that was built. -/
def Started (s : Server) : Prop := ∀ cfg ∈ s.cluster, cfg.Built

end Server

/-- The configuration of this node was built. -/
def World.BuiltAt (w : World) (me : String) : Prop := ∀ n ∈ w me, n.config.Built

section Worlds

variable {net : Net} {env : Env} {me : String} {cfg newCfg : ClusterConfig} {args : List Frame}
  {w : World}

/-- A node that changes its store keeps its configuration. -/
theorem World.BuiltAt.setStore (h : w.BuiltAt me) (s : Store) : (w.setStore me s).BuiltAt me := by
  intro n hn
  rw [World.setStore, Function.update_self] at hn
  obtain ⟨n', hn', rfl⟩ := Option.map_eq_some_iff.mp hn
  exact h n' hn'

theorem builtAt_setConfig (hnew : newCfg.Built) : (w.setConfig me newCfg).BuiltAt me := by
  intro n hn
  rw [World.setConfig, Function.update_self] at hn
  obtain ⟨n', -, rfl⟩ := Option.map_eq_some_iff.mp hn
  exact hnew

/-- Handing over keys keeps the configuration. -/
theorem World.BuiltAt.handOver (slotsOf : String → List ℕ) : ∀ (targets : List String) {w : World},
    w.BuiltAt me → (handOver net.rpc env me slotsOf targets w).2.BuiltAt me
  | [], _, h => h
  | target :: targets, w, h => by
    rw [LoonyRedis.handOver, pushEntriesTo_rpc]
    exact handOver slotsOf targets (h.setStore _)

/-- The list that a node commits is a built one. -/
theorem World.BuiltAt.migrateAndCommit (h : w.BuiltAt me) (newNodes : List String) :
    (migrateAndCommit net.rpc env me cfg newNodes w).2.BuiltAt me := by
  unfold LoonyRedis.migrateAndCommit
  split
  · next hnew => exact builtAt_setConfig ⟨_, _, hnew⟩
  · exact h

theorem World.BuiltAt.clusterMeet (h : w.BuiltAt me) :
    (clusterMeet net.rpc env me cfg args w).2.BuiltAt me := by
  unfold LoonyRedis.clusterMeet
  simp only [sendAll_rpc]
  split
  · exact h
  · split
    · exact h
    · exact h
    · split
      · exact h
      · exact h.migrateAndCommit _

theorem World.BuiltAt.clusterForget (h : w.BuiltAt me) :
    (clusterForget net.rpc me cfg args w).2.BuiltAt me := by
  unfold LoonyRedis.clusterForget
  simp only [sendAll_rpc, Net.rpc]
  split
  · exact h
  · split
    · exact h
    · split
      · exact h
      · split
        · exact h
        · split
          · exact h
          · next hnew =>
            have hbuilt : (w.setConfig me _).BuiltAt me := builtAt_setConfig ⟨_, _, hnew⟩
            split <;> exact hbuilt

/-- Every subcommand leaves the node with a built configuration. -/
theorem World.BuiltAt.cmdCluster (h : w.BuiltAt me) (rows : List (String × NodeState)) :
    (cmdCluster net.rpc env me cfg args rows w).2.BuiltAt me := by
  have hsync : (clusterSync net.rpc env me cfg args w).2.BuiltAt me := by
    unfold clusterSync
    split
    · exact h
    · split
      · exact h.migrateAndCommit _
      · exact h
  have hdrain : (clusterDrain net.rpc env me cfg args w).2.BuiltAt me := by
    unfold clusterDrain
    split
    · exact h
    · exact h.handOver _ _
  unfold LoonyRedis.cmdCluster
  split
  case h_10 => exact h.clusterMeet
  case h_11 => exact h.clusterForget
  case h_12 => exact hsync
  case h_13 => exact hdrain
  case h_6 => split <;> first | exact h | split <;> exact h
  case h_9 => split <;> exact h
  all_goals exact h

end Worlds

namespace Server

variable {S : Sizes} {s s' : Server}

/-- A call leaves the server with a built configuration. -/
theorem Started.execute (hs : s.Started) (h : Handling) : (h.execute s).2.Started := by
  unfold Handling.execute
  cases route (h.context s) h.frame with
  | reply f => exact hs
  | propose args => exact hs
  | proxy target args => exact hs
  | dispatch name args => exact hs
  | remote name args =>
    simp only [Handling.remote]
    split
    · cases hcfg : s.cluster with
      | none => exact hs
      | some cfg =>
        have hworld : s.world.BuiltAt "" := by
          intro n hn
          rw [world, hcfg] at hn
          obtain rfl : _ = n := by simpa using hn
          exact hs cfg hcfg
        have hafter : World.BuiltAt (cmdCluster h.net.rpc h.env "" cfg args
            (h.ctx.health.getD []) s.world).2 "" := hworld.cmdCluster _
        simp only [ofWorld]
        split
        · next n hn =>
          intro cfg' hcfg'
          obtain rfl : n.config = cfg' := by simpa using hcfg'
          exact hafter n hn
        · exact hs
    · exact hs

/-- Every event leaves the server with a built configuration. -/
theorem Started.step (hs : s.Started) {e : ServerEvent} (he : s.InMemory S e)
    (hstep : s.step S e = some s') : s'.Started := by
  cases e with
  | background store =>
    obtain rfl : _ = s' := by simpa [Server.step] using hstep
    exact hs
  | execute h =>
    obtain ⟨r, hr, rfl⟩ := Option.map_eq_some_iff.mp hstep
    have hreturns := returns_execute (h := h) hs he
    have hsafe : h.Safe S s := by
      rw [← hreturns.isSome_iff, hr]
      rfl
    obtain rfl : h.execute s = r := by simpa [hreturns.ok hsafe] using hr
    exact hs.execute h

/-- In every state that a server reaches, `execute` returns exactly if `Safe` holds. -/
theorem execute_returns_iff {s₀ : Server} (hstart : s₀.Started)
    (hrun : Runs.Run (step S) (InMemory S) s₀ s) {h : Handling}
    (hmemory : s.InMemory S (.execute h)) :
    (h.executeChecked S s).isSome = true ↔ h.Safe S s := by
  have hs : s.Started := hrun.invariant (fun _ _ _ hs he hstep => hs.step he hstep) hstart
  exact (returns_execute hs hmemory).isSome_iff

/-- The sizes of a build for 64 bits. -/
def sizes64 : Sizes := ⟨32, 40, 40, by decide, by decide⟩

/-- A command on a node that is alone, one second after its start. -/
def aloneAt (parts : List String) : Handling where
  frame := .command parts
  ctx := .standalone
  env := .plain Store.nanosPerSec
  aof := true
  net := fun _ _ => ⟨[], none⟩
  proposed := .ok

theorem inMemory_aloneAt (parts : List String) :
    InMemory sizes64 ⟨∅, none⟩ (.execute (aloneAt parts)) :=
  fun k e hk => by simp at hk

/-- `SET` with an expiry in seconds, one second after the start. -/
theorem safe_set_iff {secs : String} {n : Text.I64} (hn : bulkAsI64 [.bulkStr secs] 0 = some n)
    (hpos : 0 < n.1) : (aloneAt ["SET", "k", "v", "EX", secs]).Safe sizes64 ⟨∅, none⟩ ↔
      Store.nanosPerSec + n.1.toNat * Store.nanosPerSec < instantEnd := by
  have hcontext : (aloneAt ["SET", "k", "v", "EX", secs]).context ⟨∅, none⟩ = .standalone := rfl
  have hroute : route .standalone (aloneAt ["SET", "k", "v", "EX", secs]).frame =
      .dispatch "SET" (["SET", "k", "v", "EX", secs].map .bulkStr) := rfl
  have hex : setOption {} (.bulkStr "EX") = { unit := some Store.nanosPerSec } := rfl
  have htime : setOption { unit := some Store.nanosPerSec } (.bulkStr secs) =
      { ttl := some (n.1.toNat * Store.nanosPerSec) } := by
    have hfilter : (some n).filter (fun n : Text.I64 => decide (0 < n.1)) = some n := by simp [hpos]
    simp only [setOption, hn, hfilter, Option.map_some]
  have hread : readCommand .standalone "SET" (["SET", "k", "v", "EX", secs].map .bulkStr) =
      .ok (.set "k" (Utf8.toBytes "v") (some (n.1.toNat * Store.nanosPerSec)) false false) := by
    have hset : cmdSet (["SET", "k", "v", "EX", secs].map .bulkStr) = .ok (.set "k"
        (Utf8.toBytes "v") (setOption (setOption {} (.bulkStr "EX")) (.bulkStr secs)).ttl
        (setOption (setOption {} (.bulkStr "EX")) (.bulkStr secs)).nx
        (setOption (setOption {} (.bulkStr "EX")) (.bulkStr secs)).xx) := rfl
    change cmdSet (["SET", "k", "v", "EX", secs].map .bulkStr) = _
    rw [hset, hex, htime]
  simp only [Handling.Safe, hcontext, hroute, Handling.DispatchSafe, hread]
  simp [Readable, Request.Safe, aloneAt, Env.plain]

theorem set_returns : ((aloneAt ["SET", "k", "v", "EX", "60"]).executeChecked sizes64
    ⟨∅, none⟩).isSome = true := by
  refine (execute_returns_iff (fun _ h => by cases h) (.refl _) (inMemory_aloneAt _)).mpr ?_
  have hn : bulkAsI64 [.bulkStr "60"] 0 = some ⟨60, by decide⟩ := by decide
  rw [safe_set_iff hn (by decide)]
  decide

/-- An expiry past the end of time is added to the current time. -/
theorem set_panics : ∃ (h : Handling) (b : Bytes) (n : ℕ),
    parseFrame b = .ok (some (h.frame, n)) ∧ InMemory sizes64 ⟨∅, none⟩ (.execute h) ∧
      h.executeChecked sizes64 ⟨∅, none⟩ = none := by
  have hmemory := inMemory_aloneAt ["SET", "k", "v", "EX", "9223372036854775807"]
  refine ⟨aloneAt ["SET", "k", "v", "EX", "9223372036854775807"], _, _,
    parseFrame_serializeFrame ?_ ?_, hmemory,
    (returns_execute (fun _ h => by cases h) hmemory).panics ?_⟩
  · simp only [aloneAt, Frame.command, List.map, Frame.bulkStr, Frame.Fits, Frame.AllFit]
    decide
  · simp [aloneAt, Frame.command, Frame.bulkStr, Frame.OneLine, Frame.AllOneLine]
  · have hn : bulkAsI64 [.bulkStr "9223372036854775807"] 0 =
        some ⟨9223372036854775807, by decide⟩ := by decide
    rw [safe_set_iff hn (by decide)]
    decide

end Server

end LoonyRedis
