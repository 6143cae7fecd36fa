import LoonyRedis.Connection
import LoonyRedis.Ownership
import LoonyRedis.Replies
import LoonyRedis.SlotTables

/-!
# One hop

A node of a cluster that receives a command for a slot of another node proxies it : it sends
the frame to the owner and passes the response on. The owner decodes the command name, finds the
keys and consults its table once more, so it could proxy the command again.

It does not if all nodes have the same node list. The frame arrives as it was sent, since what
was parsed is read back as it was written, so both nodes find the same slot; and both find the
same owner, since the tables are equal. So the command is dispatched once, by the owner, and the
reply of the owner reaches the client (`Fleet.one_hop`), whichever node it sent the command to.
-/

namespace LoonyRedis

open Std Store

/-! ## Serving a frame -/

/-- The stores of the nodes, by their addresses. -/
abbrev Stores := String → Store

/-- What came of a frame : the reply, the stores afterwards, the nodes that dispatched it, and the
number of connections between nodes. -/
structure Service where
  reply : Frame
  stores : Stores
  dispatched : List String
  hops : ℕ

/-- The response that `proxy_to` reads in what came back from a node. -/
def readProxied (node : String) (b : Bytes) : Frame :=
  match parseFrame b with
  | .ok (some (resp, _)) => resp
  | _ => .error s!"ERR cluster proxy timeout to {node}"

section Serving

variable (ctx : String → CommandContext) (env : String → Env)
  (remote : String → Route → Stores → Frame × Stores)

/-- The connection on which a node is sent the bytes of a frame : it parses and executes it and
writes its reply, which the sender reads. -/
def overProxy (node : String) (execute : Frame → Service) (frame : Frame) (σ : Stores) : Service :=
  match parseFrame (serializeFrame frame) with
  | .ok (some (request, _)) =>
    -- The connection would stream a snapshot, of which no response is read in time.
    if isSyncCommand request then ⟨readProxied node [], σ, [], 1⟩
    else
      let r := execute request
      ⟨readProxied node (serializeFrame r.reply), r.stores, r.dispatched, r.hops + 1⟩
  | .ok none => ⟨readProxied node [], σ, [], 1⟩
  | .error e => ⟨readProxied node (serializeFrame (.error s!"ERR protocol error: {e}")), σ, [], 1⟩

/-- The node `a` executes a frame; `proxy` sends a frame to another node, and `remote` serves the
commands that talk to other nodes. -/
def serveHere (proxy : String → Frame → Service) (a : String) (frame : Frame) (σ : Stores) :
    Service :=
  match route (ctx a) frame with
  | .reply f => ⟨f, σ, [], 0⟩
  | .dispatch name args =>
    let o := dispatch (ctx a) (env a) name args (σ a)
    ⟨o.reply, Function.update σ a o.store, [a], 0⟩
  | .proxy target args => proxy target (.array (some args))
  | r => ⟨(remote a r σ).1, (remote a r σ).2, [], 0⟩

/-- The node `a` is sent a frame, which is proxied at most `depth` times. -/
def serveOn : ℕ → String → Frame → Stores → Service
  | 0, a, frame, σ => serveHere ctx env remote (fun _ _ => ⟨panicked, σ, [], 0⟩) a frame σ
  | depth + 1, a, frame, σ =>
    serveHere ctx env remote (fun target f =>
      overProxy target (fun request => serveOn depth target request σ) f σ) a frame σ

end Serving

/-! ## The nodes -/

/-- The nodes of a cluster with one node list, without Raft and replicas. -/
structure Fleet where
  nodes : List String
  ctx : String → CommandContext
  raft : ∀ a ∈ nodes, (ctx a).raft = none
  leader : ∀ a ∈ nodes, (ctx a).isLeader = true
  client : ∀ a ∈ nodes, (ctx a).isReplicaReplay = false
  /-- Each node has made its configuration from some list of the same addresses. -/
  config : ∀ a ∈ nodes, ∃ given cfg, (ctx a).cluster = some cfg ∧
    ClusterConfig.new given a = .ok cfg ∧ cfg.nodes = nodes

namespace Fleet

variable (F : Fleet) {a : String}

/-- All nodes agree on the sorted list. -/
theorem config_eq (ha : a ∈ F.nodes) :
    F.nodes.Pairwise (· < ·) ∧ (F.ctx a).cluster = some (cfgFor F.nodes a) := by
  obtain ⟨given, cfg, hcluster, hnew, hnodes⟩ := F.config a ha
  have hsorted := sorted_sortNodes given
  have hnew' : ClusterConfig.new (sortNodes given) a = .ok cfg := by
    rw [← hnew, ClusterConfig.new, sortNodes_of_sorted hsorted]
    rfl
  obtain ⟨-, -, rfl⟩ := (new_eq_ok_iff hsorted).mp hnew'
  change sortNodes given = F.nodes at hnodes
  rw [hnodes] at hsorted hcluster
  exact ⟨hsorted, hcluster⟩

theorem owner_mem (ha : a ∈ F.nodes) (slot : ℕ) : ownerOfSlot F.nodes slot ∈ F.nodes :=
  ownerOfSlot_mem (List.ne_nil_of_mem ha) slot

variable {name : String} {args : List Frame}

/-- Where a node takes a command of the table : to the owner of its slot. -/
theorem route_eq (ha : a ∈ F.nodes) (hname : frameName (.array (some args)) = some name)
    (hrouted : isRouted name = true) : route (F.ctx a) (.array (some args)) =
      match commandSlot name args with
      | .crossSlot => .reply (.error "CROSSSLOT Keys in request don't hash to the same slot")
      | .slot slot => if ownerOfSlot F.nodes slot = a then .dispatch name args
          else .proxy (ownerOfSlot F.nodes slot) args
      | .none => .dispatch name args := by
  obtain ⟨hsorted, hcluster⟩ := F.config_eq ha
  obtain ⟨cmd, hcmd, rfl⟩ := Option.map_eq_some_iff.mp hname
  have hargs : args ≠ [] := by
    rintro rfl
    cases hcmd
  have hnames : ∀ name, isRouted name = true → name ≠ "CLUSTER" ∧ name ≠ "MIGRATE" := by
    intro name h
    refine ⟨?_, ?_⟩ <;> rintro rfl <;> revert h <;> decide
  obtain ⟨hnotCluster, hnotMigrate⟩ := hnames _ hrouted
  have hhere : routeHere (F.ctx a) (commandName cmd) args = .dispatch (commandName cmd) args := by
    simp [routeHere, F.leader a ha, hnotCluster, hnotMigrate]
  have hmine (slot : ℕ) : (cfgFor F.nodes a).isMine slot = true ↔ ownerOfSlot F.nodes slot = a :=
    isMine_slot (hsorted.imp fun hlt => hlt.ne) ha
  have hcommand : routeCommand (F.ctx a) (commandName cmd) args =
      (clusterRoute (cfgFor F.nodes a) (commandName cmd) args).getD
        (.dispatch (commandName cmd) args) := by
    unfold routeCommand
    rw [F.client a ha, F.raft a ha, hcluster]
    cases isWrite (commandName cmd) <;> simp [hnotCluster, hhere]
  rw [route.eq_2 _ _ hargs, hcmd]
  simp only [hcommand, clusterRoute]
  cases commandSlot (commandName cmd) args with
  | none | crossSlot => rfl
  | slot slot =>
    by_cases howner : ownerOfSlot F.nodes slot = a
    · simp only [(hmine slot).mpr howner, howner, if_true, Option.getD_none]
    · have hnot : (cfgFor F.nodes a).isMine slot = false := by
        rw [Bool.eq_false_iff, Ne, hmine]
        exact howner
      simp only [hnot, howner, if_false, Bool.false_eq_true, Option.getD_some]
      rfl

end Fleet

/-! ## The connection between two nodes -/

/-- A request that fits is executed as it was sent, and its reply arrives. -/
theorem overProxy_eq {node : String} {execute : Frame → Service} {frame : Frame} {σ : Stores}
    (hfit : frame.Fits) (hline : frame.OneLine) (hsync : isSyncCommand frame = false)
    (hfit' : (execute frame).reply.Fits) (hline' : (execute frame).reply.OneLine) :
    overProxy node execute frame σ =
      { execute frame with hops := (execute frame).hops + 1 } := by
  simp only [overProxy, parseFrame_serializeFrame hfit hline, hsync, Bool.false_eq_true, if_false,
    readProxied, parseFrame_serializeFrame hfit' hline']

/-- `SYNC` is not a command of the table. -/
theorem isSyncCommand_of_isRouted {frame : Frame} {name : String}
    (hname : frameName frame = some name) (hrouted : isRouted name = true) :
    isSyncCommand frame = false := by
  rw [Bool.eq_false_iff]
  intro hsync
  unfold isSyncCommand at hsync
  split at hsync
  · next cmd rest =>
    have hcmd : cmd.map Text.toAsciiUppercase = Utf8.toBytes "SYNC" := of_decide_eq_true hsync
    have hlen : cmd.length = 4 := by
      rw [← List.length_map, hcmd]
      rfl
    obtain rfl : name = "SYNC" := by
      have htake : commandName cmd = "SYNC" := by
        rw [commandName, List.take_of_length_le (by omega), hcmd]
        decide
      exact (Option.some.inj hname).symm.trans htake
    revert hrouted
    decide
  · cases hsync

/-! ## Commands without keys -/

/-- A request that names no key does the same everywhere. -/
theorem Request.run_of_no_keys {r : Request} (h : r.keyList = some []) (ctx ctx' : CommandContext)
    (env env' : Env) (s s' : Store) :
    (r.run ctx env s).reply = (r.run ctx' env' s').reply ∧ (r.run ctx env s).store = s := by
  cases r with
  | answer f => exact ⟨rfl, rfl⟩
  | del ks | existsKeys ks | combine op ks =>
    obtain rfl := Option.some.inj h
    exact ⟨rfl, rfl⟩
  | mset pairs =>
    obtain rfl := List.map_eq_nil_iff.mp (Option.some.inj h)
    exact ⟨rfl, rfl⟩
  | mget ks =>
    have hnone : ∀ {ks : List (Option String)}, ks.filterMap id = [] → ∀ now (s : Store),
        mgetLoop now ks s = (ks.map fun _ => .nullBulk, s) := by
      intro ks hks now s
      induction ks with
      | nil => rfl
      | cons k ks ih =>
        cases k with
        | some k => simp at hks
        | none =>
          rw [mgetLoop, ih (by simpa using hks)]
          rfl
    simp only [run, hnone (Option.some.inj h), and_self]
  | _ => simp [keyList] at h

theorem keyArgs_ne_none {name : String} (hrouted : isRouted name = true) (args : List Frame) :
    keyArgs name args ≠ none := by
  simp only [isRouted, decide_eq_true_eq] at hrouted
  have hplace : keyPlace name ≠ .whole := by
    rcases hrouted with hsingle | hevery | hpairs
    · rw [keyPlace_singleKey name hsingle]
      decide
    · revert name
      decide
    · revert name
      decide
  unfold keyArgs
  cases hkind : keyPlace name with
  | whole => exact absurd hkind hplace
  | nowhere | first | firstTwo | every | pairs | object => exact Option.some_ne_none _

theorem dispatch_of_no_slot {name : String} {args : List Frame} (hrouted : isRouted name = true)
    (hslot : commandSlot name args = .none) (ctx ctx' : CommandContext) (env env' : Env)
    (s s' : Store) :
    (dispatch ctx env name args s).reply = (dispatch ctx' env' name args s').reply ∧
      (dispatch ctx env name args s).store = s := by
  have hdebug : name ≠ "DEBUG" := by
    rintro rfl
    revert hrouted
    decide
  rw [dispatch, dispatch, Deployment.readCommand_congr ctx ctx' hdebug]
  cases hread : readCommand ctx' name args with
  | error f => exact ⟨rfl, rfl⟩
  | ok r =>
    refine Request.run_of_no_keys ?_ ctx ctx' env env' s s'
    rw [keyList_of_readCommand hread]
    cases hks : keyArgs name args with
    | none => exact absurd hks (keyArgs_ne_none hrouted args)
    | some ks =>
      cases ks with
      | nil => rfl
      | cons b ks => exact absurd hslot (slot_of_keyArg hrouted hks List.mem_cons_self).1

/-! ## Every command of the table -/

namespace Fleet

variable (F : Fleet) (env : String → Env) (remote : String → Route → Stores → Frame × Stores)

/-- The node `a` of the cluster is sent a frame. -/
def serve (depth : ℕ) (a : String) (frame : Frame) (σ : Stores) : Service :=
  serveOn F.ctx env remote depth a frame σ

/-- The reply and the effect of a command that is dispatched on the node `a`. -/
def dispatchedOn (a name : String) (args : List Frame) (σ : Stores) : Service :=
  let o := dispatch (F.ctx a) (env a) name args (σ a)
  ⟨o.reply, Function.update σ a o.store, [a], 0⟩

variable {a name : String} {args : List Frame}

theorem serve_dispatch {depth : ℕ} {σ : Stores}
    (hroute : route (F.ctx a) (.array (some args)) = .dispatch name args) :
    F.serve env remote depth a (.array (some args)) σ = F.dispatchedOn env a name args σ := by
  cases depth <;> rw [serve, serveOn, serveHere, hroute] <;> rfl

theorem oneLine_of_isRouted (hrouted : isRouted name = true) (ctx : CommandContext) (env : Env)
    (s : Store) : (dispatch ctx env name args s).reply.OneLine := by
  have hall : ∀ name ∈ singleKeyCommands ++ ["DEL", "UNLINK", "EXISTS", "MGET"] ++
      ["MSET", "MSETNX"], Text.printable name.toList = true ∧ name ≠ "DEBUG" := by
    decide
  obtain ⟨hprint, hdebug⟩ := hall name (by simpa [isRouted, or_assoc] using hrouted)
  have hline : Text.OneLine name := by
    have hof := Text.oneLine_ofList hprint
    rwa [String.ofList_toList] at hof
  exact (dispatch_oneLine ctx env name args s).mpr ⟨hline, fun h => absurd h hdebug⟩

/-- A command with a slot is dispatched by the owner of the slot, after at most one hop. -/
theorem serve_slot (ha : a ∈ F.nodes) (depth : ℕ) (σ : Stores)
    (hfit : (Frame.array (some args)).Fits) (hline : (Frame.array (some args)).OneLine)
    (hname : frameName (.array (some args)) = some name) (hrouted : isRouted name = true)
    {slot : ℕ} (hslot : commandSlot name args = .slot slot)
    (hreply : (F.dispatchedOn env (ownerOfSlot F.nodes slot) name args σ).reply.Fits) :
    F.serve env remote (depth + 1) a (.array (some args)) σ =
      { F.dispatchedOn env (ownerOfSlot F.nodes slot) name args σ with
        hops := if ownerOfSlot F.nodes slot = a then 0 else 1 } := by
  have hroute := F.route_eq ha hname hrouted
  rw [hslot] at hroute
  by_cases howner : ownerOfSlot F.nodes slot = a
  · simp only [howner, if_true] at hroute ⊢
    exact F.serve_dispatch env remote hroute
  · simp only [howner, if_false] at hroute ⊢
    -- The owner finds itself.
    have hthere := F.route_eq (F.owner_mem ha slot) hname hrouted
    simp only [hslot, if_true] at hthere
    have hserve : serveOn F.ctx env remote depth (ownerOfSlot F.nodes slot) (.array (some args)) σ =
        F.dispatchedOn env (ownerOfSlot F.nodes slot) name args σ :=
      F.serve_dispatch env remote hthere
    rw [serve, serveOn, serveHere, hroute]
    simp only
    rw [overProxy_eq hfit hline (isSyncCommand_of_isRouted hname hrouted)
      (by rw [hserve]; exact hreply)
      (by rw [hserve]; exact oneLine_of_isRouted hrouted _ _ _), hserve]
    rfl

theorem serve_crossSlot (ha : a ∈ F.nodes) (depth : ℕ) (σ : Stores)
    (hname : frameName (.array (some args)) = some name) (hrouted : isRouted name = true)
    (hslot : commandSlot name args = .crossSlot) :
    F.serve env remote depth a (.array (some args)) σ =
      ⟨.error "CROSSSLOT Keys in request don't hash to the same slot", σ, [], 0⟩ := by
  have hroute := F.route_eq ha hname hrouted
  rw [hslot] at hroute
  cases depth <;> rw [serve, serveOn, serveHere, hroute]

/-- One hop is enough : a command of the table that has a slot is dispatched once, by the owner of
the slot, and the client reads the reply of the owner; one with several slots is refused and
changes nothing. The reply and the stores do not depend on the node that the client asks. -/
theorem one_hop (depth : ℕ) (σ : Stores) {b : Bytes} {n : ℕ}
    (hparse : parseFrame b = .ok (some (.array (some args), n)))
    (hfit : (Frame.array (some args)).Fits)
    (hname : frameName (.array (some args)) = some name) (hrouted : isRouted name = true)
    (hreply : ∀ a ∈ F.nodes, (F.dispatchedOn env a name args σ).reply.Fits) :
    (∀ a ∈ F.nodes, ∀ slot, commandSlot name args = .slot slot →
      ownerOfSlot F.nodes slot ∈ F.nodes ∧
      F.serve env remote (depth + 1) a (.array (some args)) σ =
        { F.dispatchedOn env (ownerOfSlot F.nodes slot) name args σ with
          hops := if ownerOfSlot F.nodes slot = a then 0 else 1 }) ∧
    (∀ a ∈ F.nodes, commandSlot name args = .crossSlot →
      F.serve env remote (depth + 1) a (.array (some args)) σ =
        ⟨.error "CROSSSLOT Keys in request don't hash to the same slot", σ, [], 0⟩) ∧
    ∀ a ∈ F.nodes, ∀ a' ∈ F.nodes,
      (F.serve env remote (depth + 1) a (.array (some args)) σ).reply =
        (F.serve env remote (depth + 1) a' (.array (some args)) σ).reply ∧
      (F.serve env remote (depth + 1) a (.array (some args)) σ).stores =
        (F.serve env remote (depth + 1) a' (.array (some args)) σ).stores := by
  have hline : (Frame.array (some args)).OneLine := oneLine_of_read ⟨b, n, hparse⟩
  have hslots : ∀ a ∈ F.nodes, ∀ slot, commandSlot name args = .slot slot →
      F.serve env remote (depth + 1) a (.array (some args)) σ =
        { F.dispatchedOn env (ownerOfSlot F.nodes slot) name args σ with
          hops := if ownerOfSlot F.nodes slot = a then 0 else 1 } := fun a ha slot hslot =>
    F.serve_slot env remote ha depth σ hfit hline hname hrouted hslot
      (hreply _ (F.owner_mem ha slot))
  refine ⟨fun a ha slot hslot => ⟨F.owner_mem ha slot, hslots a ha slot hslot⟩, fun a ha hslot =>
    F.serve_crossSlot env remote ha (depth + 1) σ hname hrouted hslot, fun a ha a' ha' => ?_⟩
  cases hslot : commandSlot name args with
  | slot slot => rw [hslots a ha slot hslot, hslots a' ha' slot hslot]; exact ⟨rfl, rfl⟩
  | crossSlot =>
    rw [F.serve_crossSlot env remote ha (depth + 1) σ hname hrouted hslot,
      F.serve_crossSlot env remote ha' (depth + 1) σ hname hrouted hslot]
    exact ⟨rfl, rfl⟩
  | none =>
    have hhere : ∀ a ∈ F.nodes, F.serve env remote (depth + 1) a (.array (some args)) σ =
        F.dispatchedOn env a name args σ := by
      intro a ha
      refine F.serve_dispatch env remote ?_
      rw [F.route_eq ha hname hrouted, hslot]
    have hsame (a : String) : (F.dispatchedOn env a name args σ).stores = σ := by
      rw [dispatchedOn]
      simp only [(dispatch_of_no_slot hrouted hslot (F.ctx a) (F.ctx a) (env a) (env a) (σ a)
        (σ a)).2, Function.update_eq_self]
    rw [hhere a ha, hhere a' ha', hsame, hsame]
    exact ⟨(dispatch_of_no_slot hrouted hslot _ _ _ _ _ _).1, rfl⟩

section Example

/-- Two nodes that have been given the list of both. -/
def pair : Fleet where
  nodes := ["a:1", "b:1"]
  ctx a := nodeContext (cfgFor ["a:1", "b:1"] a)
  raft _ _ := rfl
  leader _ _ := rfl
  client _ _ := rfl
  config a ha := ⟨["a:1", "b:1"], cfgFor ["a:1", "b:1"] a, rfl,
    (new_eq_ok_iff (by decide)).mpr ⟨ha, by decide, rfl⟩, rfl⟩

/-- A command for the first node, sent to the second. -/
theorem one_hop_set :
    let r := pair.serve (fun _ => .plain 0) (fun _ _ σ => (panicked, σ)) 1 "b:1"
      (.command ["SET", "k", "v"]) fun _ => ∅
    r.reply = .ok ∧ r.dispatched = ["a:1"] ∧ r.hops = 1 := by
  have hfit : (Frame.command ["SET", "k", "v"]).Fits := by
    simp only [Frame.command, List.map, Frame.bulkStr, Frame.Fits, Frame.AllFit]
    decide
  have hline : (Frame.command ["SET", "k", "v"]).OneLine := by
    simp [Frame.command, Frame.bulkStr, Frame.OneLine, Frame.AllOneLine]
  have hname : frameName (.command ["SET", "k", "v"]) = some "SET" := by decide
  have hroutes := pair.one_hop (fun _ => .plain 0) (fun _ _ σ => (panicked, σ)) 0 (fun _ => ∅)
    (parseFrame_serializeFrame hfit hline) hfit hname (by decide) fun a ha => by
      have hreply : (pair.dispatchedOn (fun _ => .plain 0) a "SET"
          (["SET", "k", "v"].map Frame.bulkStr) fun _ => ∅).reply = .ok := rfl
      rw [hreply]
      simp [Frame.ok, Frame.Fits]
  have howner : ownerOfSlot pair.nodes (slotForKey (Utf8.toBytes "k")) = "a:1" := by
    decide
  obtain ⟨-, hserve⟩ := hroutes.1 "b:1" (by decide) (slotForKey (Utf8.toBytes "k")) rfl
  rw [howner] at hserve
  intro r
  have hr : r = _ := hserve
  rw [hr]
  exact ⟨rfl, rfl, rfl⟩

end Example

end Fleet

end LoonyRedis
