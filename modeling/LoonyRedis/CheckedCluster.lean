import LoonyRedis.CheckedTables
import LoonyRedis.CheckedValues
import LoonyRedis.ParseSafety

/-!
# Where the cluster commands panic

The handlers of `CLUSTER` build configurations from node lists that a client or another node has
sent, and unwrap the result. They look the slots up in the tables, and parse what other nodes
answer. Here these operations are checked.

`ClusterConfig.Accepts` is the condition, for a configuration that was built and the arguments of
the command, that no node list is one without a table, and `ClusterConfig.Parses` that the answers
of the nodes that are called can be parsed, up to the frame that is taken of each.
`returns_cmdCluster` says that the command returns exactly under both, and then what `cmdCluster`
says.
-/

namespace LoonyRedis

open Checked

/-! ## What comes back from another node -/

/-- A call of another node : what is in the buffer after each read, and the error of the system if
the connection fails. -/
structure Exchange where
  reads : List Buffer
  failure : Option String

/-- What comes back for a frame that is sent to an address. -/
abbrev Net := String → Frame → Exchange

/-- The loop that reads until there is a frame. -/
def readLoop (frameSize : ℕ) : List Buffer → Option (Option Frame)
  | [] => some none
  | b :: bs => do
    match ← parseFrameAt frameSize b with
    | .ok (some (f, _)) => return some f
    | _ => readLoop frameSize bs

/-- The frame at the front of a buffer. -/
def frameAt (b : Buffer) : Option Frame :=
  match parseFrame b.1 with
  | .ok (some (f, _)) => some f
  | _ => none

namespace Exchange

/-- The first frame among the reads. Reads after it are not looked at. -/
def answer (x : Exchange) : Option Frame := x.reads.findSome? frameAt

/-- The error of an internal call without an answer. -/
def internalError (x : Exchange) (addr : String) : Frame :=
  match x.failure with
  | some e => .error s!"ERR internal RPC to {addr} failed: {e}"
  | none => .error s!"ERR internal RPC to {addr} timed out"

/-- The error of a proxied command without an answer. -/
def proxyError (x : Exchange) (addr : String) : Frame :=
  match x.failure with
  | some e => .error s!"ERR cluster proxy failed: {e}"
  | none => .error s!"ERR cluster proxy timeout to {addr}"

end Exchange

/-- No array that is read announces more elements than there can be room for, until there is a
frame. -/
def ReadsFit (frameSize : ℕ) : List Buffer → Prop
  | [] => True
  | b :: bs => (∀ count, Opens b.1 count → count * frameSize ≤ isizeMax) ∧
      (frameAt b = none → ReadsFit frameSize bs)

/-- What is read of the answer can be parsed. -/
def Exchange.Parses (frameSize : ℕ) (x : Exchange) : Prop := ReadsFit frameSize x.reads

/-- Reading an answer panics only where it announces an array too large. -/
theorem returns_readLoop (frameSize : ℕ) : ∀ bs : List Buffer,
    Returns (readLoop frameSize bs) (ReadsFit frameSize bs) (bs.findSome? frameAt)
  | [] => (Returns.of_eq rfl).congr Iff.rfl
  | b :: bs => by
    have ih := returns_readLoop frameSize bs
    by_cases hfits : ∀ count, Opens b.1 count → count * frameSize ≤ isizeMax
    · have hframe : frameAt b = match parseFrame b.1 with
          | .ok (some (f, _)) => some f
          | _ => none := rfl
      rw [readLoop, parseFrameAt_eq hfits, List.findSome?_cons, ReadsFit, and_iff_right hfits]
      cases hparse : parseFrame b.1 with
      | error e =>
        rw [hparse] at hframe
        rw [hframe]
        exact ih.congr (by simp)
      | ok o =>
        rw [hparse] at hframe
        cases o with
        | none =>
          rw [hframe]
          exact ih.congr (by simp)
        | some p =>
          rw [hframe]
          exact (Returns.of_eq rfl).congr (by simp)
    · refine ⟨fun h => absurd h.1 hfits, fun _ => ?_⟩
      rw [readLoop, parseFrameAt_eq_none hfits]
      rfl

section Calls

variable (S : Sizes) (net : Net)

/-- The answer of an internal call, or its error. Reading the answer can panic. -/
def sendInternalChecked (addr : String) (frame : Frame) : Option Frame := do
  return (← readLoop S.frame (net addr frame).reads).getD ((net addr frame).internalError addr)

/-- The answer of a proxied command, or its error. Reading the answer can panic. -/
def proxyToChecked (addr : String) (frame : Frame) : Option Frame := do
  return (← readLoop S.frame (net addr frame).reads).getD ((net addr frame).proxyError addr)

/-- The calls, without the checks. They leave this node as it is. -/
def Net.rpc : Rpc := fun addr frame w =>
  ((net addr frame).answer.getD ((net addr frame).internalError addr), w)

/-- Send one frame to each peer in turn; what they answer is not used. -/
def sendAllChecked (frame : Frame) : List String → Option Unit
  | [] => some ()
  | peer :: peers => do
    let _ ← sendInternalChecked S net peer frame
    sendAllChecked frame peers

/-- The loop of `push_entries_to`, which a connection that fails ends. -/
def pushEntriesChecked (env : Env) (target : String) : List MigrateEntry → Option Unit
  | [] => some ()
  | e :: entries => do
    match ← readLoop S.frame (net target (buildValueFrame env e.1 e.2.1 e.2.2)).reads with
    | some _ => pushEntriesChecked env target entries
    | none => return ()

/-- Take the keys of the slots from the store, with their slots computed by checked indexing. -/
def drainSlotsChecked (env : Env) (slots : List ℕ) (s : Store) :
    Option (List MigrateEntry × Store) := do
  let _ ← ((s.allKeys env).map Utf8.toBytes).mapM slotForKeyChecked
  return drainSlots env slots s

/-- Drain the slots of each target and push their keys to it; the number of keys. -/
def handOverChecked (env : Env) (me : String) (slotsOf : String → List ℕ) :
    List String → World → Option (ℕ × World)
  | [], w => some (0, w)
  | target :: targets, w => do
    let drained ← drainSlotsChecked env (slotsOf target) ((w me).elim ∅ ClusterNode.store)
    pushEntriesChecked S net env target drained.1
    let rest ← handOverChecked env me slotsOf targets (w.setStore me drained.2)
    return (drained.1.length + rest.1, rest.2)

end Calls

/-! ## The handlers -/

/-- A configuration without its table. -/
def TableConfig.config (cfg : TableConfig) : ClusterConfig := ⟨cfg.nodes, cfg.myIndex⟩

section Handlers

variable (S : Sizes) (net : Net) (env : Env) (me : String) (cfg : ClusterConfig)
  (args : List Frame)

/-- The two configurations are unwrapped, and the slots looked up in both. -/
def migrateAndCommitChecked (newNodes : List String) (w : World) : Option (Frame × World) := do
  let myAddr ← cfg.withTable.myAddr
  let oldCfg ← (TableConfig.new cfg.nodes myAddr).toOption
  let newCfg ← (TableConfig.new newNodes myAddr).toOption
  let _ ← oldCfg.newOwners newCfg
  let (_, w) ← handOverChecked S net env me (oldCfg.config.slotsToSend newCfg.config)
    (env.keyOrder (oldCfg.config.sendTargets newCfg.config)) w
  return (.ok, w.setConfig me newCfg.config)

/-- `CLUSTER MEET host port`, with the checks of its calls. -/
def clusterMeetChecked (w : World) : Option (Frame × World) :=
  if args.length < 4 then some (wrongNumArgs "cluster|meet", w)
  else match bulkAsStr args 2, (bulkAsStr args 3).bind fun s => Text.parseU16 s.toList with
    | none, _ => some (wrongNumArgs "cluster|meet", w)
    | some _, none => some (.error "ERR invalid port", w)
    | some host, some port =>
      let newAddr := s!"{host}:{port}"
      if newAddr ∈ cfg.nodes then some (.error "ERR node already in cluster", w)
      else do
        let myAddr ← cfg.withTable.myAddr
        let newNodes := sortNodes (cfg.nodes ++ [newAddr])
        let sync := syncFrame (nodesList newNodes)
        let _ ← sendInternalChecked S net newAddr sync
        sendAllChecked S net sync (cfg.nodes.filter (· ≠ myAddr))
        migrateAndCommitChecked S net env me cfg newNodes w

/-- `CLUSTER FORGET node`, with the checks of its calls. -/
def clusterForgetChecked (w : World) : Option (Frame × World) :=
  if args.length < 3 then some (wrongNumArgs "cluster|forget", w)
  else match bulkAsStr args 2 with
    | none => some (wrongNumArgs "cluster|forget", w)
    | some arg =>
      match cfg.nodes.find? fun a => nodeId a = arg ∨ a = arg with
      | none => some (.error s!"ERR unknown node id `{arg}`", w)
      | some leaving => do
        let myAddr ← cfg.withTable.myAddr
        if leaving = myAddr then return (.error "ERR cannot FORGET self", w)
        else
          let newNodes := cfg.nodes.filter (· ≠ leaving)
          let newCfg ← (TableConfig.new newNodes myAddr).toOption
          let w := w.setConfig me newCfg.config
          sendAllChecked S net (syncFrame (nodesList newNodes))
            (cfg.nodes.filter fun a => a ≠ myAddr ∧ a ≠ leaving)
          match ← sendInternalChecked S net leaving (drainFrame (nodesList newNodes)) with
          | .error e => return (.error s!"ERR DRAIN failed: {e}", w)
          | _ => return (.ok, w)

/-- `CLUSTER SYNC nodes`, with the checks of its calls. -/
def clusterSyncChecked (w : World) : Option (Frame × World) :=
  match bulkAsStr args 2 with
  | none => some (wrongNumArgs "cluster|sync", w)
  | some csv => do
    let myAddr ← cfg.withTable.myAddr
    if myAddr ∈ splitNodes csv then migrateAndCommitChecked S net env me cfg (splitNodes csv) w
    else return (.error "ERR this node is not in the new node list", w)

/-- `CLUSTER DRAIN nodes`, with the checks of its calls. -/
def clusterDrainChecked (w : World) : Option (Frame × World) :=
  match bulkAsStr args 2 with
  | none => some (wrongNumArgs "cluster|drain", w)
  | some csv => do
    let myAddr ← cfg.withTable.myAddr
    let slots ← cfg.withTable.mySlots
    let routing ← (TableConfig.forRouting (splitNodes csv)).toOption
    let owners ← slots.mapM routing.nodeForSlot
    let targets := (owners.filter (· ≠ myAddr)).dedup
    let r ← handOverChecked S net env me (cfg.slotsToDrain routing.config) (env.keyOrder targets) w
    return (.integer r.1, r.2)

/-- The ranges of all nodes, for the reports. -/
def reportChecked : Option Unit := do
  let _ ← (List.range cfg.nodes.length).mapM cfg.withTable.slotRangesFor

/-- `CLUSTER`, with the checks of each subcommand. -/
def cmdClusterChecked (rows : List (String × NodeState)) (w : World) : Option (Frame × World) :=
  let sub := ((bulkAsStr args 1).map Text.toUppercase).getD ""
  if sub = "MEET" then clusterMeetChecked S net env me cfg args w
  else if sub = "FORGET" then clusterForgetChecked S net me cfg args w
  else if sub = "SYNC" then clusterSyncChecked S net env me cfg args w
  else if sub = "DRAIN" then clusterDrainChecked S net env me cfg args w
  else do
    if sub = "NODES" ∨ sub = "SLOTS" ∨ sub = "SHARDS" then reportChecked cfg
    if sub = "MYID" then (do let _ ← cfg.withTable.myAddr)
    if sub = "KEYSLOT" then (do let _ ← (bulkBytes args 2).mapM slotForKeyChecked)
    return cmdCluster net.rpc env me cfg args rows w

/-- The arguments from the sixth on are sliced for `COPY`. -/
def cmdMigrateChecked (s : Store) (w : World) : Option (Frame × World) :=
  if args.length < 6 then some (cmdMigrate net.rpc env me args s w)
  else match bulkAsStr args 1, (bulkAsStr args 2).bind fun p => Text.parseU16 p.toList,
      bulkAsStr args 3 with
    | some host, some port, some key => do
      let _ ← sliceFrom args 6
      match s.get env.now key with
      | (none, _) => return cmdMigrate net.rpc env me args s w
      | (some v, s') =>
        let _ ← sendInternalChecked S net s!"{host}:{port}"
          (buildValueFrame env key v (s'.pttl env.now key))
        return cmdMigrate net.rpc env me args s w
    | _, _, _ => some (cmdMigrate net.rpc env me args s w)

end Handlers

/-! ## Calls that can be parsed -/

section Calls

variable (S : Sizes) (net : Net)

/-- The answers to the entries that are pushed can be parsed. After a call that fails there is no
other. -/
def PushesParse (env : Env) (target : String) : List MigrateEntry → Prop
  | [] => True
  | e :: entries =>
    let x := net target (buildValueFrame env e.1 e.2.1 e.2.2)
    x.Parses S.frame ∧ (x.answer ≠ none → PushesParse env target entries)

/-- The answers of all targets can be parsed. -/
def HandOverParses (env : Env) (me : String) (slotsOf : String → List ℕ) :
    List String → World → Prop
  | [], _ => True
  | target :: targets, w =>
    let drained := drainSlots env (slotsOf target) ((w me).elim ∅ ClusterNode.store)
    PushesParse S net env target drained.1 ∧
      HandOverParses env me slotsOf targets (w.setStore me drained.2)

variable {S net}

/-- An internal call panics only by its answer. -/
theorem returns_sendInternal (addr : String) (frame : Frame) (w : World) :
    Returns (sendInternalChecked S net addr frame) ((net addr frame).Parses S.frame)
      (net.rpc addr frame w).1 :=
  (returns_readLoop S.frame (net addr frame).reads).bind_some rfl

/-- A proxied call panics only by its answer. -/
theorem returns_proxyTo (addr : String) (frame : Frame) :
    Returns (proxyToChecked S net addr frame) ((net addr frame).Parses S.frame)
      ((net addr frame).answer.getD ((net addr frame).proxyError addr)) :=
  (returns_readLoop S.frame (net addr frame).reads).bind_some rfl

/-- A broadcast panics only by one of its answers. -/
theorem returns_sendAll (frame : Frame) : ∀ peers : List String,
    Returns (sendAllChecked S net frame peers)
      (∀ peer ∈ peers, (net peer frame).Parses S.frame) ()
  | [] => (Returns.of_eq rfl).congr (by simp)
  | peer :: peers => by
    rw [List.forall_mem_cons]
    exact (returns_sendInternal peer frame fun _ => none).bind fun _ => returns_sendAll frame peers

/-- A broadcast leaves the own store alone. -/
theorem sendAll_rpc (frame : Frame) (w : World) : ∀ peers, sendAll net.rpc frame peers w = w
  | [] => rfl
  | _ :: peers => sendAll_rpc frame w peers

/-- Pushing entries panics only by one of the answers. -/
theorem returns_pushEntries (env : Env) (target : String) : ∀ entries : List MigrateEntry,
    Returns (pushEntriesChecked S net env target entries) (PushesParse S net env target entries) ()
  | [] => (Returns.of_eq rfl).congr Iff.rfl
  | e :: entries => by
    refine (returns_readLoop S.frame _).bind fun _ => ?_
    unfold Exchange.answer
    cases (net target (buildValueFrame env e.1 e.2.1 e.2.2)).reads.findSome? frameAt with
    | none => exact (Returns.of_eq rfl).congr (by simp)
    | some f => exact (returns_pushEntries env target entries).congr (by simp)

/-- Pushing entries leaves the own store alone. -/
theorem pushEntriesTo_rpc (env : Env) (target : String) (w : World) :
    ∀ entries, pushEntriesTo net.rpc env target entries w = w
  | [] => rfl
  | _ :: entries => pushEntriesTo_rpc env target w entries

/-- Handing slots over panics only by one of the answers. -/
theorem returns_handOver (env : Env) (me : String) (slotsOf : String → List ℕ) :
    ∀ (targets : List String) (w : World),
      Returns (handOverChecked S net env me slotsOf targets w)
        (HandOverParses S net env me slotsOf targets w)
        (handOver net.rpc env me slotsOf targets w)
  | [], _ => (Returns.of_eq rfl).congr Iff.rfl
  | target :: targets, w => by
    rw [handOverChecked, drainSlotsChecked, mapM_slotForKeyChecked, handOver, pushEntriesTo_rpc]
    refine (returns_pushEntries env target _).bind fun _ => ?_
    exact (returns_handOver env me slotsOf targets _).bind_some rfl

end Calls

/-! ## Exactly under the condition -/

namespace ClusterConfig

/-- There is a slot for a node that joins. -/
def AcceptsMeet (cfg : ClusterConfig) (args : List Frame) : Prop :=
  ∀ host port, 4 ≤ args.length → bulkAsStr args 2 = some host →
    ((bulkAsStr args 3).bind fun s => Text.parseU16 s.toList) = some port →
      s!"{host}:{port}" ∉ cfg.nodes → cfg.nodes.length < numSlots

/-- A node list that this node takes over has no more nodes than slots. -/
def AcceptsSync (cfg : ClusterConfig) (args : List Frame) : Prop :=
  ∀ csv, bulkAsStr args 2 = some csv → cfg.myAddr ∈ splitNodes csv →
    (splitNodes csv).dedup.length ≤ numSlots

/-- A node list that the slots are sent to is not empty, and has no more nodes than slots. -/
def AcceptsDrain (args : List Frame) : Prop :=
  ∀ csv, bulkAsStr args 2 = some csv →
    splitNodes csv ≠ [] ∧ (splitNodes csv).dedup.length ≤ numSlots

/-- Every node list of a `CLUSTER` command has a table. -/
def Accepts (cfg : ClusterConfig) (args : List Frame) : Prop :=
  let sub := ((bulkAsStr args 1).map Text.toUppercase).getD ""
  (sub = "MEET" → cfg.AcceptsMeet args) ∧ (sub = "SYNC" → cfg.AcceptsSync args) ∧
    (sub = "DRAIN" → AcceptsDrain args)

section Answers

variable (S : Sizes) (net : Net) (env : Env) (me : String) (cfg : ClusterConfig)
  (args : List Frame) (w : World)

/-- The answers of the nodes that take over slots of this node under a new node list. -/
def MigrationParses (newNodes : List String) : Prop :=
  let newCfg := cfgFor (sortNodes newNodes) cfg.myAddr
  HandOverParses S net env me (cfg.slotsToSend newCfg) (env.keyOrder (cfg.sendTargets newCfg)) w

/-- The answers of the node that joins, of the peers, and of the nodes that take over slots. -/
def MeetParses : Prop :=
  ∀ host port, 4 ≤ args.length → bulkAsStr args 2 = some host →
    ((bulkAsStr args 3).bind fun s => Text.parseU16 s.toList) = some port →
      s!"{host}:{port}" ∉ cfg.nodes →
        let newNodes := sortNodes (cfg.nodes ++ [s!"{host}:{port}"])
        let sync := syncFrame (nodesList newNodes)
        (net s!"{host}:{port}" sync).Parses S.frame ∧
          (∀ peer ∈ cfg.nodes.filter (· ≠ cfg.myAddr), (net peer sync).Parses S.frame) ∧
            MigrationParses S net env me cfg w newNodes

/-- The answers of the peers, and of the node that leaves. -/
def ForgetParses : Prop :=
  ∀ arg leaving, 3 ≤ args.length → bulkAsStr args 2 = some arg →
    (cfg.nodes.find? fun a => nodeId a = arg ∨ a = arg) = some leaving → leaving ≠ cfg.myAddr →
      let csv := nodesList (cfg.nodes.filter (· ≠ leaving))
      (∀ peer ∈ cfg.nodes.filter fun a => a ≠ cfg.myAddr ∧ a ≠ leaving,
        (net peer (syncFrame csv)).Parses S.frame) ∧
          (net leaving (drainFrame csv)).Parses S.frame

/-- The answers of the nodes that take over slots under the node list of `SYNC`. -/
def SyncParses : Prop :=
  ∀ csv, bulkAsStr args 2 = some csv → cfg.myAddr ∈ splitNodes csv →
    MigrationParses S net env me cfg w (splitNodes csv)

/-- The answers of the nodes that the slots are sent to. -/
def DrainParses : Prop :=
  ∀ csv, bulkAsStr args 2 = some csv →
    let routing := ClusterConfig.forRouting (splitNodes csv)
    let targets := ((cfg.mySlots.map routing.nodeForSlot).filter (· ≠ cfg.myAddr)).dedup
    HandOverParses S net env me (cfg.slotsToDrain routing) (env.keyOrder targets) w

/-- What a `CLUSTER` command reads of other nodes can be parsed. -/
def Parses : Prop :=
  let sub := ((bulkAsStr args 1).map Text.toUppercase).getD ""
  (sub = "MEET" → MeetParses S net env me cfg args w) ∧
    (sub = "FORGET" → ForgetParses S net cfg args) ∧
      (sub = "SYNC" → SyncParses S net env me cfg args w) ∧
        (sub = "DRAIN" → DrainParses S net env me cfg args w)

end Answers

end ClusterConfig

/-- What `MIGRATE` reads of the target of a key that is held can be parsed. -/
def MigrateParses (S : Sizes) (net : Net) (env : Env) (args : List Frame) (s : Store) : Prop :=
  ∀ host port key v, 6 ≤ args.length → bulkAsStr args 1 = some host →
    ((bulkAsStr args 2).bind fun p => Text.parseU16 p.toList) = some port →
      bulkAsStr args 3 = some key → (s.get env.now key).1 = some v →
        (net s!"{host}:{port}" (buildValueFrame env key v
          ((s.get env.now key).2.pttl env.now key))).Parses S.frame

section Handlers

variable {S : Sizes} {net : Net} {env : Env} {me : String} {cfg : ClusterConfig}
  {args : List Frame}

/-- A configuration of this node is built unless there are more nodes than slots. -/
theorem returns_new {newNodes : List String} (hmem : cfg.myAddr ∈ newNodes) :
    Returns (TableConfig.new newNodes cfg.myAddr).toOption (newNodes.dedup.length ≤ numSlots)
      (cfgFor (sortNodes newNodes) cfg.myAddr).withTable := by
  rw [← length_sortNodes, TableConfig.new_eq]
  refine ⟨fun hle => ?_, fun hgt => ?_⟩
  · rw [new_eq_ok.mpr ⟨hmem, hle, rfl⟩]
    rfl
  · cases hnew : ClusterConfig.new newNodes cfg.myAddr with
    | error e => rfl
    | ok newCfg => exact absurd (new_eq_ok.mp hnew).2.1 hgt

/-- A migration panics by one of the answers it gets, or for more nodes than slots. -/
theorem returns_migrateAndCommit (hcfg : cfg.Built) {newNodes : List String}
    (hmem : cfg.myAddr ∈ newNodes) (w : World) :
    Returns (migrateAndCommitChecked S net env me cfg newNodes w)
      (newNodes.dedup.length ≤ numSlots ∧ cfg.MigrationParses S net env me w newNodes)
      (migrateAndCommit net.rpc env me cfg newNodes w) := by
  refine .bind_eq hcfg.myAddr_withTable ?_
  rw [TableConfig.new_eq cfg.nodes, hcfg.new_eq]
  refine (returns_new hmem).bind fun hle => ?_
  rw [← length_sortNodes] at hle
  have hnew := ClusterConfig.Built.of_mem hmem hle
  refine .bind_eq (hcfg.newOwners_eq hnew) ?_
  rw [migrateAndCommit, hcfg.new_eq, new_eq_ok.mpr ⟨hmem, hle, rfl⟩]
  exact (returns_handOver env me _ _ w).bind_some rfl

/-- When `CLUSTER MEET` returns. -/
theorem returns_clusterMeet (hcfg : cfg.Built) (w : World) :
    Returns (clusterMeetChecked S net env me cfg args w)
      (cfg.AcceptsMeet args ∧ cfg.MeetParses S net env me args w)
      (clusterMeet net.rpc env me cfg args w) := by
  unfold clusterMeetChecked clusterMeet ClusterConfig.AcceptsMeet ClusterConfig.MeetParses
  split
  · next hlen =>
    refine (Returns.of_eq rfl).congr (iff_of_true trivial ⟨?_, ?_⟩)
    · exact fun _ _ h => absurd hlen (by omega)
    · exact fun _ _ h => absurd hlen (by omega)
  · next hlen =>
    cases bulkAsStr args 2 with
    | none => exact (Returns.of_eq rfl).congr (by simp)
    | some host =>
      cases (bulkAsStr args 3).bind fun s => Text.parseU16 s.toList with
      | none => exact (Returns.of_eq rfl).congr (by simp)
      | some port =>
        simp only
        by_cases hmem : s!"{host}:{port}" ∈ cfg.nodes
        · simp only [hmem, if_true]
          refine (Returns.of_eq rfl).congr (iff_of_true trivial ⟨?_, ?_⟩)
          · rintro _ _ - ⟨⟩ ⟨⟩ hnot
            exact absurd hmem hnot
          · rintro _ _ - ⟨⟩ ⟨⟩ hnot
            exact absurd hmem hnot
        · simp only [hmem, if_false]
          have hmine : cfg.myAddr ∈ sortNodes (cfg.nodes ++ [s!"{host}:{port}"]) :=
            mem_sortNodes.mpr (List.mem_append_left _ hcfg.myAddr_mem)
          have hnodup : (cfg.nodes ++ [s!"{host}:{port}"]).Nodup := by
            refine hcfg.nodup.append (List.nodup_singleton _) ?_
            rw [List.disjoint_singleton]
            exact hmem
          have hlength : (sortNodes (cfg.nodes ++ [s!"{host}:{port}"])).dedup.length =
              cfg.nodes.length + 1 := by
            rw [(nodup_sortNodes _).dedup, length_sortNodes, hnodup.dedup, List.length_append,
              List.length_singleton]
          refine .bind_eq hcfg.myAddr_withTable ?_
          have hmigrate : Returns (migrateAndCommitChecked S net env me cfg _ w) _ _ :=
            returns_migrateAndCommit hcfg hmine w
          rw [hlength, Nat.succ_le_iff] at hmigrate
          rw [sendAll_rpc]
          refine .congr ((returns_sendInternal _ _ w).bind fun _ => (returns_sendAll _ _).bind
            fun _ => hmigrate) ?_
          constructor
          · rintro ⟨hjoin, hpeers, hlt, hmigration⟩
            refine ⟨fun _ _ _ _ _ _ => hlt, ?_⟩
            rintro _ _ - ⟨⟩ ⟨⟩ -
            exact ⟨hjoin, hpeers, hmigration⟩
          · rintro ⟨haccepts, hparses⟩
            have hlt := haccepts host port (by omega) rfl rfl hmem
            obtain ⟨hjoin, hpeers, hmigration⟩ := hparses host port (by omega) rfl rfl hmem
            exact ⟨hjoin, hpeers, hlt, hmigration⟩

/-- When `CLUSTER FORGET` returns. -/
theorem returns_clusterForget (hcfg : cfg.Built) (w : World) :
    Returns (clusterForgetChecked S net me cfg args w) (cfg.ForgetParses S net args)
      (clusterForget net.rpc me cfg args w) := by
  unfold clusterForgetChecked clusterForget ClusterConfig.ForgetParses
  split
  · next hlen =>
    exact (Returns.of_eq rfl).congr (iff_of_true trivial fun _ _ h => absurd hlen (by omega))
  · next hlen =>
    cases bulkAsStr args 2 with
    | none => exact (Returns.of_eq rfl).congr (by simp)
    | some arg =>
      simp only
      cases hfind : cfg.nodes.find? fun a => decide (nodeId a = arg ∨ a = arg) with
      | none =>
        refine (Returns.of_eq rfl).congr (iff_of_true trivial ?_)
        rintro _ _ - ⟨⟩ hsome
        cases hfind.symm.trans hsome
      | some leaving =>
        refine .bind_eq hcfg.myAddr_withTable ?_
        by_cases hself : leaving = cfg.myAddr
        · simp only [hself, if_true]
          refine (Returns.of_eq rfl).congr (iff_of_true trivial ?_)
          rintro _ _ - ⟨⟩ hsome hne
          obtain rfl := Option.some.inj (hfind.symm.trans hsome)
          exact absurd hself hne
        · -- Without the node that leaves, the others have a table.
          have hmem : cfg.myAddr ∈ cfg.nodes.filter (· ≠ leaving) :=
            List.mem_filter.mpr ⟨hcfg.myAddr_mem, decide_eq_true fun h => hself h.symm⟩
          have hle : (cfg.nodes.filter (· ≠ leaving)).dedup.length ≤ numSlots := by
            rw [(hcfg.nodup.filter _).dedup]
            exact (List.length_filter_le _ _).trans hcfg.length_le
          have hnew := new_eq_ok.mpr ⟨hmem, (length_sortNodes _).trans_le hle, rfl⟩
          simp only [hself, if_false, hnew, sendAll_rpc]
          refine .bind_eq ((returns_new hmem).ok hle) ?_
          refine .congr ((returns_sendAll _ _).bind fun _ => (returns_sendInternal _ _ w).bind
            fun _ => .of_eq ?_) ?_
          · simp only [Net.rpc]
            generalize (net leaving _).answer.getD _ = resp
            cases resp <;> rfl
          · constructor
            · rintro ⟨hpeers, hleaving, -⟩ _ _ - ⟨⟩ hsome -
              obtain rfl := Option.some.inj (hfind.symm.trans hsome)
              exact ⟨hpeers, hleaving⟩
            · intro hparses
              obtain ⟨hpeers, hleaving⟩ := hparses arg leaving (by omega) rfl hfind hself
              exact ⟨hpeers, hleaving, trivial⟩

/-- When `CLUSTER SYNC` returns. -/
theorem returns_clusterSync (hcfg : cfg.Built) (w : World) :
    Returns (clusterSyncChecked S net env me cfg args w)
      (cfg.AcceptsSync args ∧ cfg.SyncParses S net env me args w)
      (clusterSync net.rpc env me cfg args w) := by
  unfold clusterSyncChecked clusterSync ClusterConfig.AcceptsSync ClusterConfig.SyncParses
  cases bulkAsStr args 2 with
  | none => exact (Returns.of_eq rfl).congr (by simp)
  | some csv =>
    refine .bind_eq hcfg.myAddr_withTable ?_
    by_cases hmem : cfg.myAddr ∈ splitNodes csv
    · simp only [hmem, if_true]
      refine (returns_migrateAndCommit hcfg hmem w).congr ?_
      simp [hmem]
    · simp only [hmem, if_false]
      exact (Returns.of_eq rfl).congr (by simp [hmem])

/-- Without nodes, the table has an owner for each slot, who is not there. -/
theorem mapM_nodeForSlot_nil {slots : List ℕ} (hne : slots ≠ []) :
    slots.mapM (TableConfig.mk [] 0 (buildTable 1)).nodeForSlot = none := by
  obtain ⟨slot, slots, rfl⟩ := List.exists_cons_of_ne_nil hne
  have hnone : (TableConfig.mk [] 0 (buildTable 1)).nodeForSlot slot = none := by
    rw [TableConfig.nodeForSlot, Option.bind_eq_none_iff]
    intro _ _
    rfl
  rw [List.mapM_cons, hnone]
  rfl

/-- With no nodes, the table for routing is that of one node. -/
theorem forRouting_nil : TableConfig.forRouting [] = .ok ⟨[], 0, buildTable 1⟩ := by
  have hbase : ¬ numSlots / max ([] : List String).length 1 = 0 := by decide
  have hsort : sortNodes [] = [] := rfl
  simp only [TableConfig.forRouting, hsort, hbase, if_false]
  rfl

/-- There is no table for more nodes than slots. -/
theorem forRouting_of_lt {nodes : List String} (h : ¬ (sortNodes nodes).length ≤ numSlots) :
    (TableConfig.forRouting nodes).toOption = none := by
  have hzero : numSlots / max (sortNodes nodes).length 1 = 0 := by
    rw [Nat.div_eq_zero_iff]
    omega
  simp only [TableConfig.forRouting, hzero, if_true]
  rfl

/-- When `CLUSTER DRAIN` returns. -/
theorem returns_clusterDrain (hcfg : cfg.Built) (w : World) :
    Returns (clusterDrainChecked S net env me cfg args w)
      (ClusterConfig.AcceptsDrain args ∧ cfg.DrainParses S net env me args w)
      (clusterDrain net.rpc env me cfg args w) := by
  unfold clusterDrainChecked clusterDrain ClusterConfig.AcceptsDrain ClusterConfig.DrainParses
  cases bulkAsStr args 2 with
  | none => exact (Returns.of_eq rfl).congr (by simp)
  | some csv =>
    refine .bind_eq hcfg.myAddr_withTable (.bind_eq hcfg.mySlots_eq ?_)
    simp only [Option.some.injEq, forall_eq']
    rw [← length_sortNodes]
    by_cases hle : (sortNodes (splitNodes csv)).length ≤ numSlots
    · by_cases hne : splitNodes csv = []
      · -- The table says that the first node owns all slots, and there is none.
        refine ⟨fun h => absurd hne h.1.1, fun _ => ?_⟩
        rw [hne, forRouting_nil]
        simp only [Except.toOption, Option.bind_eq_bind, Option.bind_some,
          mapM_nodeForSlot_nil hcfg.mySlots_ne_nil, Option.bind_none]
      · have hnodes : (ClusterConfig.forRouting (splitNodes csv)).nodes ≠ [] := by
          obtain ⟨a, ha⟩ := List.exists_mem_of_ne_nil _ hne
          exact List.ne_nil_of_mem (mem_sortNodes.mpr ha)
        have hlookup := mapM_eq fun slot (hslot : slot ∈ cfg.mySlots) =>
          TableConfig.nodeForSlot_withTable hnodes hle
            (ClusterConfig.Built.lt_of_mem_mySlots hslot)
        rw [TableConfig.forRouting_eq hne hle, and_iff_right ⟨hne, hle⟩]
        refine .bind_eq rfl (.bind_eq hlookup ?_)
        exact (returns_handOver env me _ _ w).bind_some rfl
    · refine ⟨fun h => absurd h.1.2 hle, fun _ => ?_⟩
      rw [forRouting_of_lt hle]
      rfl

/-- The reports never panic. -/
theorem reportChecked_eq (hcfg : cfg.Built) : reportChecked cfg = some () := by
  rw [reportChecked, mapM_eq fun i _ => hcfg.slotRangesFor_eq i]
  rfl

/-- A `CLUSTER` command returns exactly if its node lists have tables and what it reads of other
nodes can be parsed. -/
theorem returns_cmdCluster (hcfg : cfg.Built) (rows : List (String × NodeState)) (w : World) :
    Returns (cmdClusterChecked S net env me cfg args rows w)
      (cfg.Accepts args ∧ cfg.Parses S net env me args w)
      (cmdCluster net.rpc env me cfg args rows w) := by
  unfold cmdClusterChecked ClusterConfig.Accepts ClusterConfig.Parses
  generalize hsub : ((bulkAsStr args 1).map Text.toUppercase).getD "" = sub
  simp only
  by_cases hmeet : sub = "MEET"
  · subst hmeet
    have hcmd : cmdCluster net.rpc env me cfg args rows w =
        clusterMeet net.rpc env me cfg args w := by simp only [cmdCluster, hsub]
    rw [hcmd]
    exact (returns_clusterMeet hcfg w).congr (by simp)
  by_cases hforget : sub = "FORGET"
  · subst hforget
    have hcmd : cmdCluster net.rpc env me cfg args rows w =
        clusterForget net.rpc me cfg args w := by simp only [cmdCluster, hsub]
    rw [hcmd]
    exact (returns_clusterForget hcfg w).congr (by simp)
  by_cases hsync : sub = "SYNC"
  · subst hsync
    have hcmd : cmdCluster net.rpc env me cfg args rows w =
        clusterSync net.rpc env me cfg args w := by simp only [cmdCluster, hsub]
    rw [hcmd]
    exact (returns_clusterSync hcfg w).congr (by simp)
  by_cases hdrain : sub = "DRAIN"
  · subst hdrain
    have hcmd : cmdCluster net.rpc env me cfg args rows w =
        clusterDrain net.rpc env me cfg args w := by simp only [cmdCluster, hsub]
    rw [hcmd]
    exact (returns_clusterDrain hcfg w).congr (by simp)
  · simp only [hmeet, hforget, hsync, hdrain, if_false, false_implies, and_self]
    refine .of_eq ?_
    have hslot : (bulkBytes args 2).mapM slotForKeyChecked =
        some ((bulkBytes args 2).map slotForKey) := by
      cases bulkBytes args 2 with
      | none => rfl
      | some k => simp
    simp only [reportChecked_eq hcfg, hcfg.myAddr_withTable, hslot]
    split <;> split <;> split <;> rfl

/-- When `MIGRATE` returns. -/
theorem returns_cmdMigrate (s : Store) (w : World) :
    Returns (cmdMigrateChecked S net env me args s w) (MigrateParses S net env args s)
      (cmdMigrate net.rpc env me args s w) := by
  unfold cmdMigrateChecked MigrateParses
  split
  · next hlen =>
    exact (Returns.of_eq rfl).congr (iff_of_true trivial fun _ _ _ _ h => absurd hlen (by omega))
  · next hlen =>
    have hslice : sliceFrom args 6 = some (args.drop 6) := sliceFrom_eq (by omega)
    split
    · next host port key hhost hport hkey =>
      refine .bind_eq hslice ?_
      split
      · next s' hget =>
        refine (Returns.of_eq rfl).congr (iff_of_true trivial ?_)
        intro host' port' key' v' _ hhost' hport' hkey' hv
        obtain rfl := Option.some.inj (hkey.symm.trans hkey')
        rw [hget] at hv
        cases hv
      · next v s' hget =>
        refine .congr ((returns_sendInternal _ _ w).bind_some
          (f := fun _ => some (cmdMigrate net.rpc env me args s w)) rfl) ?_
        constructor
        · intro hparses host' port' key' v' _ hhost' hport' hkey' hv
          obtain rfl := Option.some.inj (hhost.symm.trans hhost')
          obtain rfl := Option.some.inj (hport.symm.trans hport')
          obtain rfl := Option.some.inj (hkey.symm.trans hkey')
          rw [hget] at hv ⊢
          obtain rfl := Option.some.inj hv
          exact hparses
        · intro hall
          have hparses := hall host port key v (by omega) hhost hport hkey (by rw [hget])
          rw [hget] at hparses
          exact hparses
    · next hnone =>
      refine (Returns.of_eq rfl).congr (iff_of_true trivial ?_)
      intro host port key v _ hhost hport hkey _
      exact absurd hkey (hnone host port key hhost hport)

end Handlers

end LoonyRedis
