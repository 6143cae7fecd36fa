import LoonyRedis.Lib.Replicas
import LoonyRedis.Lib.Sharding
import LoonyRedis.OneHop

/-!
# The cluster as one server

The nodes of a cluster with one node list hold the parts of one store, each the keys of its own
slots. A client sends its commands to any of the nodes. A command with a slot is dispatched by the
owner of the slot, over a connection between two nodes if need be; one whose keys are in several
slots is refused; and the commands that `commandSlot` does not know run where they arrive, which
has to be the owner of their keys.

The slot is that of the bytes of a key, and stores are indexed by the text that these decode to.
So keys are asked to keep their owner when they are decoded, as valid UTF-8 does (`AtHome`).

A command depends on its keys alone and changes nothing else, so the owner of the keys answers as
one server would that has all of them. `cluster_serves_as_one` says so of every sequence of
commands : the clients get the answers of one server that refuses the same commands, and the
nodes hold the parts of its store.
-/

namespace LoonyRedis

open Std Store Footprint Replicas

/-- A command of a client, the node that it is sent to, and the surroundings of the nodes. -/
structure FleetCall where
  env : String → Env
  node : String
  frame : Frame

/-- The keys of the command are in several slots, and it is refused. -/
def isRefused : Frame → Bool
  | .array (some args) =>
    (frameName (.array (some args))).any fun name => commandSlot name args = .crossSlot
  | _ => false

namespace Fleet

variable (F : Fleet) (remote : String → Route → Stores → Frame × Stores) (depth : ℕ)

/-- The node that dispatches a command which is sent to `a`. -/
def executor (a : String) (frame : Frame) : String :=
  match route (F.ctx a) frame with
  | .proxy target _ => target
  | _ => a

/-- The cluster answers a command. -/
def answer (_ : Unit) (σ : Stores) (call : FleetCall) : Frame × Stores :=
  let r := F.serve call.env remote (depth + 1) call.node call.frame σ
  (r.reply, r.stores)

/-- One server that has all keys, in the surroundings of the node that dispatches the command. -/
def oneServer (_ : Unit) (s : Store) (call : FleetCall) : Frame × Store :=
  if isRefused call.frame then
    (.error "CROSSSLOT Keys in request don't hash to the same slot", s)
  else
    let env := call.env (F.executor call.node call.frame)
    let o := execute .standalone Deployment.nowhere env call.frame s
    (o.reply, o.store)

/-- A data command that names its keys, in slots of one node, as it is read from a connection. -/
structure Takes (call : FleetCall) : Prop where
  node : call.node ∈ F.nodes
  read : ∃ b n, parseFrame b = .ok (some (call.frame, n))
  fits : call.frame.Fits
  data : isData call.frame = true
  keyed : ∃ name args ks, call.frame = .array (some args) ∧ frameName call.frame = some name ∧
    name ≠ "DEBUG" ∧ keyArgs name args = some ks
  home : AtHome F.nodes call.node call.frame

end Fleet

/-! ## Commands on the owner of their keys -/

section Dispatch

variable {name : String} {args : List Frame}
  {ks : List Bytes} {nodes : List String} {σ : Stores} {t : Store} {a : String}

/-- A request with keys does not look at the context. -/
theorem Request.run_ctx {r : Request} {keys : List String} (h : r.keyList = some keys)
    (ctx ctx' : CommandContext) (env : Env) (s : Store) : r.run ctx env s = r.run ctx' env s := by
  cases r with
  | info | keys | dbsize | flush => cases h
  | _ => rfl

theorem dispatch_ctx (hname : name ≠ "DEBUG") (hks : keyArgs name args = some ks)
    (ctx ctx' : CommandContext) (env : Env) (s : Store) :
    dispatch ctx env name args s = dispatch ctx' env name args s := by
  rw [dispatch, dispatch, Deployment.readCommand_congr ctx ctx' hname]
  cases hread : readCommand ctx' name args with
  | error f => rfl
  | ok r =>
    have hlist : r.keyList = some (ks.map Utf8.lossy) := by
      rw [keyList_of_readCommand hread, hks, Option.map_some]
    exact Request.run_ctx hlist ctx ctx' env s

/-- The owner of the keys answers as a server with all keys, and keeps its part of them. -/
theorem dispatch_parts (ctx : CommandContext) (env : Env) (hparts : Parts look (ownerOf nodes) σ t)
    (hks : keyArgs name args = some ks) (hown : ∀ b ∈ ks, ownerOf nodes (Utf8.lossy b) = a) :
    (dispatch ctx env name args (σ a)).reply = (dispatch ctx env name args t).reply ∧
      Parts look (ownerOf nodes) (Function.update σ a (dispatch ctx env name args (σ a)).store)
        (dispatch ctx env name args t).store := by
  unfold dispatch
  cases hread : readCommand ctx name args with
  | error f =>
    refine ⟨rfl, ?_⟩
    rw [Function.update_eq_self]
    exact hparts
  | ok r =>
    have hlist : r.keyList = some (ks.map Utf8.lossy) := by
      rw [keyList_of_readCommand hread, hks, Option.map_some]
    have htouched : ∀ k ∈ r.touched, ownerOf nodes k = a := by
      intro k hk
      obtain ⟨b, hb, rfl⟩ := List.mem_map.mp (hk _ hlist)
      exact hown b hb
    have hlocal := r.local_run ctx env
    exact ⟨hparts.result hlocal htouched, hparts.update hlocal htouched⟩

/-- A server alone runs the command. -/
theorem execute_standalone (hdata : isData (.array (some args)) = true)
    (hname : frameName (.array (some args)) = some name)
    (elsewhere : Route → Store → Outcome) (env : Env) (s : Store) :
    execute .standalone elsewhere env (.array (some args)) s =
      dispatch .standalone env name args s := by
  obtain ⟨args', heq, hroute⟩ := route_of_frameName hname
  obtain rfl := Option.some.inj (Frame.array.inj heq)
  have hlocal : ¬ (name = "CLUSTER" ∨ name = "MIGRATE") := by
    obtain ⟨cmd, hcmd, rfl⟩ := Option.map_eq_some_iff.mp hname
    simpa [isData, hcmd] using hdata
  have hhere : routeHere .standalone name args = .dispatch name args := by
    simp [routeHere, CommandContext.standalone, hlocal]
  rw [execute, hroute, routeCommand_single rfl rfl, hhere]

end Dispatch

/-! ## The cluster -/

namespace Fleet

variable {F : Fleet} {call : FleetCall} {name : String} {args : List Frame} {ks : List Bytes}

/-- A command that `commandSlot` does not know runs where it arrives. -/
theorem route_unrouted {a : String} (ha : a ∈ F.nodes) (hdata : isData (.array (some args)) = true)
    (hname : frameName (.array (some args)) = some name) (hrouted : isRouted name = false) :
    route (F.ctx a) (.array (some args)) = .dispatch name args := by
  obtain ⟨args', heq, hroute⟩ := route_of_frameName hname
  obtain rfl := Option.some.inj (Frame.array.inj heq)
  have hlocal : ¬ (name = "CLUSTER" ∨ name = "MIGRATE") := by
    obtain ⟨cmd, hcmd, rfl⟩ := Option.map_eq_some_iff.mp hname
    simpa [isData, hcmd] using hdata
  have hhere : routeHere (F.ctx a) name args = .dispatch name args := by
    simp [routeHere, F.leader a ha, hlocal]
  have hcluster : name ≠ "CLUSTER" := fun h => hlocal (.inl h)
  rw [hroute]
  unfold routeCommand
  rw [F.client a ha, F.raft a ha, (F.config_eq ha).2]
  cases isWrite name <;>
    simp [hcluster, clusterRoute, commandSlot_of_not_isRouted hrouted, hhere]

/-- What becomes of a command : it is refused, or the owner of its keys dispatches it. -/
theorem Takes.served (h : F.Takes call) (remote : String → Route → Stores → Frame × Stores)
    (depth : ℕ) (hframe : call.frame = .array (some args))
    (hname : frameName call.frame = some name) (hks : keyArgs name args = some ks) :
    (isRefused call.frame = true ∧ ∀ σ, F.answer remote depth () σ call =
      (.error "CROSSSLOT Keys in request don't hash to the same slot", σ)) ∨
    isRefused call.frame = false ∧
      (∀ b ∈ ks, ownerOf F.nodes (Utf8.lossy b) = F.executor call.node call.frame) ∧
      ∀ σ, (F.dispatchedOn call.env (F.executor call.node call.frame) name args σ).reply.Fits →
        F.answer remote depth () σ call =
          ((F.dispatchedOn call.env (F.executor call.node call.frame) name args σ).reply,
            (F.dispatchedOn call.env (F.executor call.node call.frame) name args σ).stores) := by
  obtain ⟨env, a, frame⟩ := call
  obtain rfl : frame = .array (some args) := hframe
  have ha : a ∈ F.nodes := h.node
  have hown := fun b hb => h.home name args ks rfl hname hks b hb
  have hrefused : isRefused (.array (some args)) = decide (commandSlot name args = .crossSlot) := by
    change Option.any _ (frameName (.array (some args))) = _
    rw [show frameName (.array (some args)) = some name from hname, Option.any_some]
  -- A command that is dispatched where it arrives.
  have hhere (hroute : route (F.ctx a) (.array (some args)) = .dispatch name args) :
      F.executor a (.array (some args)) = a ∧ ∀ σ, F.answer remote depth () σ
        ⟨env, a, .array (some args)⟩ =
        ((F.dispatchedOn env a name args σ).reply, (F.dispatchedOn env a name args σ).stores) := by
    refine ⟨by rw [executor, hroute], fun σ => ?_⟩
    rw [answer, F.serve_dispatch env remote hroute]
  cases hrouted : isRouted name with
  | false =>
    obtain ⟨hexec, hanswer⟩ := hhere (route_unrouted ha h.data hname hrouted)
    refine .inr ⟨?_, ?_, ?_⟩
    · rw [hrefused, commandSlot_of_not_isRouted hrouted]
      rfl
    · intro b hb
      rw [hexec, hown b hb, hrouted]
      rfl
    · rw [hexec]
      exact fun σ _ => hanswer σ
  | true =>
    have hroute := F.route_eq ha hname hrouted
    cases hslot : commandSlot name args with
    | crossSlot =>
      refine .inl ⟨by rw [hrefused, hslot]; rfl, fun σ => ?_⟩
      rw [answer, F.serve_crossSlot env remote ha (depth + 1) σ hname hrouted hslot]
    | none =>
      rw [hslot] at hroute
      obtain ⟨hexec, hanswer⟩ := hhere hroute
      refine .inr ⟨by rw [hrefused, hslot]; rfl, ?_, ?_⟩
      · exact fun b hb => absurd hslot (slot_of_keyArg hrouted hks hb).1
      · rw [hexec]
        exact fun σ _ => hanswer σ
    | slot slot =>
      have hexec : F.executor a (.array (some args)) = ownerOfSlot F.nodes slot := by
        rw [hslot] at hroute
        simp only at hroute
        by_cases howner : ownerOfSlot F.nodes slot = a
        · rw [if_pos howner] at hroute
          rw [executor, hroute]
          exact howner.symm
        · rw [if_neg howner] at hroute
          rw [executor, hroute]
      refine .inr ⟨by rw [hrefused, hslot]; rfl, ?_, ?_⟩
      · intro b hb
        rw [hexec, hown b hb, hrouted, if_pos rfl, (slot_of_keyArg hrouted hks hb).2 slot hslot]
      · intro σ hreply
        rw [hexec] at hreply ⊢
        rw [answer, F.serve_slot env remote ha depth σ h.fits (oneLine_of_read h.read) hname hrouted
          hslot hreply]

/-- The cluster and the one server answer a command alike. -/
theorem agrees_answer (F : Fleet) (remote : String → Route → Stores → Frame × Stores) (depth : ℕ) :
    Agrees (fun t σ => Parts look (ownerOf F.nodes) σ t)
      (fun t call => F.Takes call ∧ (F.oneServer () t call).1.Fits) F.oneServer
      (F.answer remote depth) := by
  rintro t σ call - - hparts ⟨htakes, hfit⟩
  obtain ⟨name, args, ks, hframe, hname, hdebug, hks⟩ := htakes.keyed
  rcases htakes.served remote depth hframe hname hks with
    ⟨hrefused, hanswer⟩ | ⟨hserved, hown, hanswer⟩
  · rw [hanswer, oneServer, if_pos hrefused]
    exact ⟨rfl, hparts⟩
  · have hone : F.oneServer () t call =
        ((dispatch (F.ctx (F.executor call.node call.frame))
            (call.env (F.executor call.node call.frame)) name args t).reply,
          (dispatch (F.ctx (F.executor call.node call.frame))
            (call.env (F.executor call.node call.frame)) name args t).store) := by
      have hdata := htakes.data
      rw [oneServer, hserved]
      rw [hframe] at hdata hname ⊢
      simp only [Bool.false_eq_true, if_false, execute_standalone hdata hname,
        dispatch_ctx hdebug hks (F.ctx _) .standalone]
    obtain ⟨hreply, hstores⟩ := dispatch_parts (F.ctx (F.executor call.node call.frame))
      (call.env (F.executor call.node call.frame)) hparts hks hown
    rw [hone] at hfit ⊢
    rw [hanswer σ (by rw [dispatchedOn, hreply]; exact hfit)]
    exact ⟨hreply.symm, hstores⟩

end Fleet

/-- Clients send commands that name their keys to the nodes of a cluster with one node list, whose
stores are the parts of one store. They get the answers of one server with that store, which
refuses the same commands, and the stores of the nodes remain the parts of its store. -/
theorem cluster_serves_as_one (F : Fleet) (remote : String → Route → Stores → Frame × Stores)
    (depth : ℕ) {calls : List FleetCall} {σ : Stores} {t : Store}
    (hparts : Parts look (ownerOf F.nodes) σ t)
    (hcalls : Replicas.Along (fun t call => F.Takes call ∧ (F.oneServer () t call).1.Fits)
      F.oneServer (fun _ => ()) 0 calls t) :
    (run (F.answer remote depth) (fun _ => ()) 0 calls σ).1 =
      (run F.oneServer (fun _ => ()) 0 calls t).1 ∧
    Parts look (ownerOf F.nodes) (run (F.answer remote depth) (fun _ => ()) 0 calls σ).2
      (run F.oneServer (fun _ => ()) 0 calls t).2 := by
  have hrun : (run F.oneServer (fun _ => ()) 0 calls t).1 =
      (run (F.answer remote depth) (fun _ => ()) 0 calls σ).1 ∧ _ :=
    run_agree (F.agrees_answer remote depth) calls hparts hcalls
  exact ⟨hrun.1.symm, hrun.2⟩

/-! ## Two nodes -/

/-- A command of the key `k`, sent to the second node. -/
theorem takes_pair {words : List String} (name : String)
    (hname : frameName (.command words) = some name) (hrouted : isRouted name = true)
    (hks : keyArgs name (words.map Frame.bulkStr) = some [Utf8.toBytes "k"])
    (hdata : isData (.command words) = true) (hfits : (Frame.command words).Fits)
    (hline : (Frame.command words).OneLine) :
    Fleet.pair.Takes ⟨fun _ => .plain 0, "b:1", .command words⟩ where
  node := List.mem_cons_of_mem _ (List.mem_singleton_self _)
  read := ⟨_, _, parseFrame_serializeFrame hfits hline⟩
  fits := hfits
  data := hdata
  keyed := by
    refine ⟨name, _, _, rfl, hname, ?_, hks⟩
    rintro rfl
    revert hrouted
    decide
  home := by
    intro name' args ks hargs hname' hks' b hb
    obtain rfl := Option.some.inj (hname.symm.trans hname')
    obtain rfl := Option.some.inj (Frame.array.inj hargs)
    obtain rfl := Option.some.inj (hks.symm.trans hks')
    obtain rfl := List.mem_singleton.mp hb
    rw [ownerOf_lossy (by rw [Utf8.lossy_toBytes]), if_pos hrouted]

/-- A write and a read of a key of the first node, both sent to the second. -/
def setThenGet : List FleetCall :=
  [⟨fun _ => .plain 0, "b:1", .command ["SET", "k", "v"]⟩,
    ⟨fun _ => .plain 0, "b:1", .command ["GET", "k"]⟩]

theorem cluster_serves_as_one_pair :
    (run (Fleet.pair.answer (fun _ _ σ => (panicked, σ)) 0) (fun _ => ()) 0 setThenGet
      fun _ => ∅).1 = [.ok, .bulkStr "v"] := by
  have hfits : (Frame.command ["SET", "k", "v"]).Fits ∧ (Frame.command ["GET", "k"]).Fits := by
    simp only [Frame.command, List.map, Frame.bulkStr, Frame.Fits, Frame.AllFit]
    decide
  have hline : (Frame.command ["SET", "k", "v"]).OneLine ∧
      (Frame.command ["GET", "k"]).OneLine := by
    simp [Frame.command, Frame.bulkStr, Frame.OneLine, Frame.AllOneLine]
  have hone : (run Fleet.pair.oneServer (fun _ => ()) 0 setThenGet ∅).1 = [.ok, .bulkStr "v"] := by
    decide
  have hreplies : Frame.Fits .ok ∧ (Frame.bulkStr "v").Fits := by
    simp only [Frame.ok, Frame.bulkStr, Frame.Fits]
    decide
  have hcalls : Replicas.Along
      (fun t call => Fleet.pair.Takes call ∧ (Fleet.pair.oneServer () t call).1.Fits)
      Fleet.pair.oneServer (fun _ => ()) 0 setThenGet ∅ := by
    rw [setThenGet, run, run, run, List.cons.injEq, List.cons.injEq] at hone
    refine ⟨⟨takes_pair "SET" (by decide) (by decide) (by decide) (by decide) hfits.1 hline.1, ?_⟩,
      ⟨takes_pair "GET" (by decide) (by decide) (by decide) (by decide) hfits.2 hline.2, ?_⟩,
      trivial⟩
    · exact hone.1 ▸ hreplies.1
    · exact hone.2.1 ▸ hreplies.2
  rw [← hone]
  exact (cluster_serves_as_one Fleet.pair _ 0 (fun k => rfl) hcalls).1

end LoonyRedis
