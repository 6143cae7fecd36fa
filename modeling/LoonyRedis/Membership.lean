import LoonyRedis.Commands
import LoonyRedis.Replay
import Mathlib.Logic.Function.Basic

/-!
# Cluster membership and migration

The nodes of a cluster, each with its store and its configuration, and the commands that
change them : `CLUSTER MEET` and `FORGET`, sent by an operator, and `CLUSTER SYNC` and
`DRAIN`, by which a node tells another that the node list has changed. A node whose slots
change owner drains their keys and pushes them to the new owner as ordinary commands, which
the receiver executes under the configuration it has at that time : it may proxy them on.

All of this happens while the handler of the first command waits, so a command that changes
the membership is a function from the cluster before it to the cluster after it. `serve` is
that function, for any frame sent to any node; its first argument bounds the depth of calls
between nodes.
-/

namespace LoonyRedis

/-! ## Node lists -/

/-- Addresses separated by commas. -/
def nodesList (nodes : List String) : String :=
  String.ofList ([','].intercalate (nodes.map String.toList))

/-- The addresses of a list, without white space around them and without empty ones. -/
def splitNodes (csv : String) : List String :=
  (((csv.toList.splitOn ',').map fun cs => String.ofList (Text.trim cs)).filter (· ≠ ""))

/-! ## Reports -/

/-- The host and the port of an address, with defaults. -/
def splitAddr (addr : String) : String × ℕ :=
  let host := (addr.toList.reverse.dropWhile (· ≠ ':')).reverse.dropLast
  let port := (addr.toList.reverse.takeWhile (· ≠ ':')).reverse
  (if ':' ∈ addr.toList then String.ofList host else "127.0.0.1",
    (Text.parseU16 port).getD 6379)

namespace ClusterConfig

/-- The text of `CLUSTER INFO`, in which all slots are well. -/
def clusterInfo (cfg : ClusterConfig) : String :=
  let n := cfg.nodes.length
  "cluster_enabled:1\r\ncluster_state:ok\r\n" ++ s!"cluster_slots_assigned:{numSlots}\r\n" ++
    s!"cluster_slots_ok:{numSlots}\r\n" ++ "cluster_slots_pfail:0\r\ncluster_slots_fail:0\r\n" ++
    s!"cluster_known_nodes:{n}\r\n" ++ s!"cluster_size:{n}\r\n" ++
    "cluster_current_epoch:1\r\ncluster_my_epoch:1\r\n"

/-- One line for each node. -/
def clusterNodesText (cfg : ClusterConfig) : String :=
  "\n".intercalate (cfg.nodes.zipIdx.map fun (addr, i) =>
    let flags := if i = cfg.myIndex then "myself,master" else "master"
    let slots := " ".intercalate ((cfg.slotRangesFor i).map fun (a, b) => s!"{a}-{b}")
    let id := nodeId addr
    s!"{id} {addr}@0 {flags} - 0 0 {i} connected {slots}")

/-- `CLUSTER SLOTS` : an entry for each range, with its node. -/
def clusterSlotsFrame (cfg : ClusterConfig) : Frame :=
  .array (some (cfg.nodes.zipIdx.flatMap fun (addr, i) =>
    let (host, port) := splitAddr addr
    (cfg.slotRangesFor i).map fun (a, b) =>
      .array (some [.integer a, .integer b,
        .array (some [.bulkStr host, .integer port, .bulkStr (nodeId addr)])])))

/-- `CLUSTER SHARDS` : an entry for each node, with its ranges. -/
def clusterShardsFrame (cfg : ClusterConfig) : Frame :=
  .array (some (cfg.nodes.zipIdx.map fun (addr, i) =>
    let (host, port) := splitAddr addr
    .array (some [.bulkStr "slots",
      .array (some ((cfg.slotRangesFor i).flatMap fun (a, b) => [.integer a, .integer b])),
      .bulkStr "nodes",
      .array (some [.array (some [.bulkStr "id", .bulkStr (nodeId addr),
        .bulkStr "endpoint", .bulkStr host, .bulkStr "ip", .bulkStr host,
        .bulkStr "port", .integer port, .bulkStr "role", .bulkStr "master"])])])))

end ClusterConfig

/-! ## The nodes -/

/-- A node, as the others meet it. -/
structure ClusterNode where
  store : Store
  config : ClusterConfig

/-- The nodes that are up, by their addresses. -/
abbrev World := String → Option ClusterNode

namespace World

/-- Replace the store of a node, if there is one at the address. -/
def setStore (w : World) (a : String) (s : Store) : World :=
  Function.update w a ((w a).map fun n => { n with store := s })

/-- Replace the configuration of a node, if there is one at the address. -/
def setConfig (w : World) (a : String) (cfg : ClusterConfig) : World :=
  Function.update w a ((w a).map fun n => { n with config := cfg })

end World

/-- The context of a client of a cluster node, which is neither a replica nor under Raft. -/
def nodeContext (cfg : ClusterConfig) : CommandContext :=
  { CommandContext.standalone with cluster := some cfg }

/-- A call of another node : the reply, and the cluster afterwards. -/
abbrev Rpc := String → Frame → World → Frame × World

/-- A handler that panics closes the connection, and the call of it fails. -/
def panicked : Frame := .error "connection closed"

/-! ## Migration -/

/-- A key with its value and its remaining time, -1 without expiry. -/
abbrev MigrateEntry := String × Value × ℤ

/-- The loop of `drain_slots`. -/
def drainLoop (now : ℕ) : List String → Store → List MigrateEntry × Store
  | [], s => ([], s)
  | k :: ks, s =>
    match s.get now k with
    | (none, s) => drainLoop now ks s
    | (some v, s) =>
      if s.pttl now k = -2 then drainLoop now ks s
      else
        ((drainLoop now ks (s.del [k]).2).1.cons (k, v, s.pttl now k),
          (drainLoop now ks (s.del [k]).2).2)

/-- Extract and remove all keys in `slots`. -/
def drainSlots (env : Env) (slots : List ℕ) (s : Store) : List MigrateEntry × Store :=
  drainLoop env.now ((s.allKeys env).filter fun k => slotForKey (Utf8.toBytes k) ∈ slots) s

/-- Send the entries to `target`, one after the other. -/
def pushEntriesTo (rpc : Rpc) (env : Env) (target : String) (entries : List MigrateEntry)
    (w : World) : World :=
  entries.foldl (fun w e => (rpc target (buildValueFrame env e.1 e.2.1 e.2.2) w).2) w

/-- The loop over the targets in the handlers of `MEET`, `SYNC` and `DRAIN` : drain the slots
of a target and push them there. Also the number of keys. -/
def handOver (rpc : Rpc) (env : Env) (me : String) (slotsOf : String → List ℕ) :
    List String → World → ℕ × World
  | [], w => (0, w)
  | target :: targets, w =>
    let drained := drainSlots env (slotsOf target) ((w me).elim ∅ ClusterNode.store)
    let rest := handOver rpc env me slotsOf targets
      (pushEntriesTo rpc env target drained.1 (w.setStore me drained.2))
    (drained.1.length + rest.1, rest.2)

/-! ## CLUSTER -/

section Handlers

variable (rpc : Rpc) (env : Env) (me : String) (cfg : ClusterConfig) (args : List Frame)

/-- What tells a peer its new node list. -/
def syncFrame (csv : String) : Frame := .command ["CLUSTER", "SYNC", csv]

/-- What tells a node that leaves to give up its slots. -/
def drainFrame (csv : String) : Frame := .command ["CLUSTER", "DRAIN", csv]

/-- Hand over what other nodes own under `newNodes`, then commit the new configuration. -/
def migrateAndCommit (newNodes : List String) (w : World) : Frame × World :=
  match ClusterConfig.new cfg.nodes cfg.myAddr, ClusterConfig.new newNodes cfg.myAddr with
  | .ok oldCfg, .ok newCfg =>
    (.ok, (handOver rpc env me (oldCfg.slotsToSend newCfg)
      (env.keyOrder (oldCfg.sendTargets newCfg)) w).2.setConfig me newCfg)
  | _, _ => (panicked, w)

/-- Send `frame` to the nodes of a list, one after the other. -/
def sendAll (frame : Frame) (peers : List String) (w : World) : World :=
  peers.foldl (fun w peer => (rpc peer frame w).2) w

/-- `CLUSTER MEET host port`. The new node and the peers are told; then this node moves its keys
and commits the list. -/
def clusterMeet (w : World) : Frame × World :=
  if args.length < 4 then (wrongNumArgs "cluster|meet", w)
  else match bulkAsStr args 2, (bulkAsStr args 3).bind fun s => Text.parseU16 s.toList with
    | none, _ => (wrongNumArgs "cluster|meet", w)
    | some _, none => (.error "ERR invalid port", w)
    | some host, some port =>
      let newAddr := s!"{host}:{port}"
      if newAddr ∈ cfg.nodes then (.error "ERR node already in cluster", w)
      else
        let newNodes := sortNodes (cfg.nodes ++ [newAddr])
        let sync := syncFrame (nodesList newNodes)
        -- The new node first, so that it can accept data, then the peers.
        let w := (rpc newAddr sync w).2
        let w := sendAll rpc sync (cfg.nodes.filter (· ≠ cfg.myAddr)) w
        migrateAndCommit rpc env me cfg newNodes w

/-- `CLUSTER FORGET node`, by its id or its address. This node commits the list, and the peers
are told, before the node that leaves gives up its slots. -/
def clusterForget (w : World) : Frame × World :=
  if args.length < 3 then (wrongNumArgs "cluster|forget", w)
  else match bulkAsStr args 2 with
    | none => (wrongNumArgs "cluster|forget", w)
    | some arg =>
      match cfg.nodes.find? fun a => nodeId a = arg ∨ a = arg with
      | none => (.error s!"ERR unknown node id `{arg}`", w)
      | some leaving =>
        if leaving = cfg.myAddr then (.error "ERR cannot FORGET self", w)
        else
          let newNodes := cfg.nodes.filter (· ≠ leaving)
          match ClusterConfig.new newNodes cfg.myAddr with
          | .error _ => (panicked, w)
          | .ok newCfg =>
            -- This node's routing first, then the peers, then the node that leaves.
            let w := w.setConfig me newCfg
            let w := sendAll rpc (syncFrame (nodesList newNodes))
              (cfg.nodes.filter fun a => a ≠ cfg.myAddr ∧ a ≠ leaving) w
            let (resp, w) := rpc leaving (drainFrame (nodesList newNodes)) w
            match resp with
            | .error e => (.error s!"ERR DRAIN failed: {e}", w)
            | _ => (.ok, w)

/-- `CLUSTER SYNC nodes`. The list is taken as it is, if this node is on it. -/
def clusterSync (w : World) : Frame × World :=
  match bulkAsStr args 2 with
  | none => (wrongNumArgs "cluster|sync", w)
  | some csv =>
    if cfg.myAddr ∈ splitNodes csv then migrateAndCommit rpc env me cfg (splitNodes csv) w
    else (.error "ERR this node is not in the new node list", w)

/-- The slots of this node that `target` owns under `routing`. -/
def ClusterConfig.slotsToDrain (cfg routing : ClusterConfig) (target : String) : List ℕ :=
  cfg.mySlots.filter fun s => routing.nodeForSlot s = target

/-- `CLUSTER DRAIN nodes`. The configuration of this node stays as it is. -/
def clusterDrain (w : World) : Frame × World :=
  match bulkAsStr args 2 with
  | none => (wrongNumArgs "cluster|drain", w)
  | some csv =>
    let routing := ClusterConfig.forRouting (splitNodes csv)
    let targets := ((cfg.mySlots.map routing.nodeForSlot).filter (· ≠ cfg.myAddr)).dedup
    let r := handOver rpc env me (cfg.slotsToDrain routing) (env.keyOrder targets) w
    (.integer r.1, r.2)

/-- The `CLUSTER` command on a node of a cluster. The health table is not part of the
nodes here : `GOSSIP` updates it and `HEALTH` reports the rows that it is given. -/
def cmdCluster (rows : List (String × NodeState)) (w : World) : Frame × World :=
  match ((bulkAsStr args 1).map Text.toUppercase).getD "" with
  | "INFO" => (.bulkStr cfg.clusterInfo, w)
  | "NODES" => (.bulkStr cfg.clusterNodesText, w)
  | "SLOTS" => (cfg.clusterSlotsFrame, w)
  | "SHARDS" => (cfg.clusterShardsFrame, w)
  | "MYID" => (.bulkStr (nodeId cfg.myAddr), w)
  | "KEYSLOT" =>
    if args.length < 3 then (wrongNumArgs "cluster|keyslot", w)
    else match bulkBytes args 2 with
      | some k => (.integer (slotForKey k), w)
      | none => (wrongNumArgs "cluster|keyslot", w)
  | "RESET" => (.ok, w)
  | "HEALTH" =>
    (.bulkStr ("\r\n".intercalate ((rows.mergeSort fun a b => a.1 ≤ b.1).map fun r =>
      r.1 ++ " " ++ r.2.asStr)), w)
  | "GOSSIP" =>
    match bulkAsStr args 2 with
    | none => (wrongNumArgs "cluster|gossip", w)
    | some _ => (.ok, w)
  | "MEET" => clusterMeet rpc env me cfg args w
  | "FORGET" => clusterForget rpc me cfg args w
  | "SYNC" => clusterSync rpc env me cfg args w
  | "DRAIN" => clusterDrain rpc env me cfg args w
  | sub => (.error s!"ERR unknown CLUSTER subcommand `{sub}`", w)

/-- Move one key to another node. -/
def cmdMigrate (s : Store) (w : World) : Frame × World :=
  if args.length < 6 then (wrongNumArgs "migrate", w)
  else match bulkAsStr args 1, (bulkAsStr args 2).bind fun p => Text.parseU16 p.toList,
      bulkAsStr args 3 with
    | none, _, _ => (wrongNumArgs "migrate", w)
    | some _, none, _ => (.error "ERR invalid port", w)
    | some _, some _, none => (wrongNumArgs "migrate", w)
    | some host, some port, some key =>
      let copy := (args.drop 6).any fun f =>
        f.payload.any fun b => b.map Text.toAsciiUppercase = Utf8.toBytes "COPY"
      match s.get env.now key with
      | (none, s) => (.bulkStr "NOKEY", w.setStore me s)
      | (some v, s) =>
        let (resp, w) := rpc s!"{host}:{port}" (buildValueFrame env key v (s.pttl env.now key)) w
        match resp with
        | .error e => (.error s!"ERR target: {e}", w)
        | .simpleString t =>
          if t = "OK" then
            (.ok, if copy then w
              else w.setStore me (((w me).elim ∅ ClusterNode.store).del [key]).2)
          else (.error "ERR unexpected response from migration target", w)
        | _ => (.error "ERR unexpected response from migration target", w)

end Handlers

/-! ## Serving a frame -/

/-- The cluster while it serves frames : the surroundings of each node, and the rows of its
health table. -/
structure ClusterEnv where
  env : String → Env
  health : String → List (String × NodeState)

/-- Send `frame` to the node `a`, with calls between nodes nested at most `depth` deep. -/
def serve (E : ClusterEnv) : ℕ → Rpc
  | 0, _, _, w => (panicked, w)
  | depth + 1, a, frame, w =>
    match w a with
    | none => (.error "connection refused", w)
    | some n =>
      match route (nodeContext n.config) frame with
      | .reply f => (f, w)
      | .dispatch name args =>
        let o := dispatch (nodeContext n.config) (E.env a) name args n.store
        (o.reply, w.setStore a o.store)
      | .proxy target args => serve E depth target (.array (some args)) w
      | .remote name args =>
        if name = "CLUSTER" then
          cmdCluster (serve E depth) (E.env a) a n.config args (E.health a) w
        else cmdMigrate (serve E depth) (E.env a) a args n.store w
      -- Without Raft nothing is proposed.
      | .propose _ => (panicked, w)

end LoonyRedis
