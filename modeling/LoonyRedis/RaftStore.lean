import LoonyRedis.Determinism
import LoonyRedis.Lib.Replicas
import LoonyRedis.RaftOrder
import LoonyRedis.Wire

/-!
# The replicated store

`apply_committed` parses the command of an entry and executes it as a replay on the store of the
node. The commands are the writes that `execute` proposes on the leader, serialised.

Each node executes the commands that it has applied, in surroundings of its own. As long as no
command draws random members or sets an expiry, all nodes answer as one server that executes the
commands in their one order (`raft_serves_as_one`) : the answer that a client receives is the one
of that server, and the store of each node is the one that the server had when it had executed
as many commands.
-/

namespace LoonyRedis

open Replicas

/-- Execute the command of a log entry. -/
def applyEntry (ctx : CommandContext) (elsewhere : Route → Store → Outcome) (env : Env) (s : Store)
    (command : Bytes) : Frame × Store :=
  match parseFrame command with
  | .ok (some (frame, _)) =>
    let o := execute ctx elsewhere env frame s
    (o.reply, o.store)
  | _ => (.error "ERR corrupt log entry", s)

/-- What a client proposes : a frame that `execute` gives to Raft, serialised. -/
def Proposed (command : Bytes) : Prop :=
  ∃ ctx frame args, route ctx frame = .propose args ∧ frame.Fits ∧ frame.OneLine ∧
    command = serializeFrame (.array (some args))

/-- The command neither draws members nor sets an expiry. -/
def SteadyCommand (s : Store) (command : Bytes) : Prop :=
  ∀ frame n r, parseFrame command = .ok (some (frame, n)) →
    requestOf .raftApply frame = some r → r.Steady s

theorem routeHere_ne_propose (ctx : CommandContext) (name : String) (args args' : List Frame) :
    routeHere ctx name args ≠ .propose args' := by
  unfold routeHere
  split
  · exact nofun
  · split <;> exact nofun

theorem clusterRoute_ne_propose (cfg : ClusterConfig) (name : String) (args args' : List Frame) :
    clusterRoute cfg name args ≠ some (.propose args') := by
  unfold clusterRoute
  split
  · exact nofun
  · split <;> exact nofun
  · exact nofun

/-- Only writes are proposed, with all their arguments. -/
theorem route_eq_propose {ctx : CommandContext} {frame : Frame} {args : List Frame}
    (h : route ctx frame = .propose args) :
    frame = .array (some args) ∧ (frameName frame).any isWrite = true := by
  unfold route at h
  split at h
  · cases h
  · next args' hargs =>
    split at h
    · cases h
    · next cmd hcmd =>
      unfold routeCommand at h
      split at h
      · next hwrite _ =>
        split at h
        · obtain rfl := Route.propose.inj h
          exact ⟨rfl, by simp [frameName, hcmd, hwrite]⟩
        · cases h
      · next cfg _ _ _ =>
        split at h
        · exact (routeHere_ne_propose _ _ _ _ h).elim
        · cases hroute : clusterRoute cfg (commandName cmd) args' with
          | none =>
            rw [hroute] at h
            exact (routeHere_ne_propose _ _ _ _ h).elim
          | some r =>
            rw [hroute, Option.getD_some] at h
            exact absurd (hroute.trans (congrArg some h)) (clusterRoute_ne_propose _ _ _ _)
      · exact (routeHere_ne_propose _ _ _ _ h).elim
  · cases h

theorem Proposed.parseFrame_eq {command : Bytes} (h : Proposed command) :
    ∃ frame n, parseFrame command = .ok (some (frame, n)) ∧
      (frameName frame).any isWrite = true := by
  obtain ⟨ctx, frame, args, hroute, hfits, hline, rfl⟩ := h
  obtain ⟨rfl, hwrite⟩ := route_eq_propose hroute
  exact ⟨_, _, parseFrame_serializeFrame hfits hline, hwrite⟩

/-- Two nodes answer a proposed command the same, and keep the same contents. -/
theorem agrees_applyEntry {ctx ctx' : CommandContext} (hctx : ctx.isReplicaReplay = true)
    (hctx' : ctx'.isReplicaReplay = true) (elsewhere elsewhere' : Route → Store → Outcome) :
    Agrees Store.Same (fun s command => Proposed command ∧ SteadyCommand s command)
      (applyEntry ctx elsewhere) (applyEntry ctx' elsewhere') := by
  rintro s t command env env' h ⟨hproposed, hsteady⟩
  obtain ⟨frame, n, hparse, hwrite⟩ := hproposed.parseFrame_eq
  simp only [applyEntry, hparse]
  rcases execute_of_doesWrites hwrite with ⟨r, hr, hexec⟩ | ⟨g, hexec⟩
  · obtain ⟨hreq, -⟩ := hexec .raftApply (.inl rfl)
    obtain ⟨hdraws, hexp⟩ := hsteady frame n r hparse hreq
    rw [(hexec ctx (.inl hctx)).2, (hexec ctx' (.inl hctx')).2]
    have hagree := Request.run_agree_of_not_draws hr hexp h hdraws ctx ctx' env env'
    exact ⟨hagree.reply, hagree.store⟩
  · rw [(hexec ctx (.inl hctx)).2, (hexec ctx' (.inl hctx')).2]
    exact ⟨rfl, h⟩

/-! ## The nodes and one server -/

section Nodes

/-- The surroundings of the nodes, for each entry that they apply. -/
structure Surroundings where
  ctx : NodeId → CommandContext
  replay : ∀ a, (ctx a).isReplicaReplay = true
  elsewhere : NodeId → Route → Store → Outcome
  envAt : NodeId → ℕ → Env

variable (w : Surroundings) (env : ℕ → Env)

/-- What a node has answered for the entries it has applied, and its store. -/
def Surroundings.served (s : RaftCluster) (a : NodeId) : List Frame × Store :=
  run (applyEntry (w.ctx a) (w.elsewhere a)) (w.envAt a) 0 (s.nodes a).applied ∅

/-- One server that executes the commands. -/
def oneServer (order : List Bytes) : List Frame × Store :=
  run (applyEntry .raftApply Deployment.nowhere) env 0 order ∅

/-- No command of the order draws members or sets an expiry. -/
def SteadyOrder (order : List Bytes) : Prop :=
  Replicas.Along SteadyCommand (applyEntry .raftApply Deployment.nowhere) env 0 order ∅

/-- A node that has applied the first commands of the order. -/
theorem served_agrees {order : List Bytes} {s : RaftCluster} {a : NodeId}
    (hpre : (s.nodes a).applied <+: order) (hproposed : ∀ command ∈ order, Proposed command)
    (hsteady : SteadyOrder env order) :
    (w.served s a).1 <+: (oneServer env order).1 ∧
      (oneServer env (s.nodes a).applied).2.Same (w.served s a).2 :=
  run_isPrefix_agree (agrees_applyEntry rfl (w.replay a) _ _) hpre Store.same_empty
    (Replicas.Along.imp (fun command hmem _ hok => ⟨hproposed command hmem, hok⟩) hsteady)

/-- What the clients of a run have seen, and the stores of the nodes, are those of one server
that executes the commands in their order. -/
structure ServedAsOne (order : List Bytes) (t u : RaftCluster) : Prop where
  linearized : Linearized order t u
  /-- A node has answered the first commands as the server does. -/
  answers : ∀ a ∈ u.members, (w.served u a).1 <+: (oneServer env order).1
  /-- Its store is the one that the server had after as many commands. -/
  stores : ∀ a ∈ u.members, (w.served u a).2.contents =
    (oneServer env (order.take (u.nodes a).lastApplied)).2.contents
  /-- The client of a proposal receives the answer of the server, whichever node sends it. -/
  replies : ∀ ch i x, (ch, .applied i x) ∈ u.answered → ∃ f,
    (oneServer env order).1[i - 1]? = some f ∧
      ∀ a ∈ u.members, i ≤ (u.nodes a).lastApplied → (w.served u a).1[i - 1]? = some f

end Nodes

/-- In a run in which no acknowledgement goes wrong and no log is cut below a pending index, with
proposals that `execute` makes and that neither draw nor set an expiry, all nodes together serve
as one server. -/
theorem raft_serves_as_one {s t u : RaftCluster} (hs : s.Start)
    (ht : Runs.Run RaftCluster.step RaftCluster.KeepsOrder s t)
    (hu : Runs.Run RaftCluster.step RaftCluster.KeepsOrder t u)
    (hproposed : ∀ p ∈ u.pushed, Proposed p.2.2.command) (w : Surroundings) (env : ℕ → Env)
    (hsteady : ∀ a ∈ u.members, SteadyOrder env (u.nodes a).applied) :
    ∃ order, ServedAsOne w env order t u := by
  obtain ⟨⟨a, ha, hlin⟩, hlength⟩ := RunInv.exists_linearized hs ht hu
  have hprop : ∀ command ∈ (u.nodes a).applied, Proposed command := by
    intro command hmem
    obtain ⟨i, hi, rfl⟩ := List.getElem_of_mem hmem
    obtain ⟨ch, term, hch⟩ := hlin.proposed i _ (List.getElem?_eq_getElem hi)
    exact hproposed _ hch
  have hagree : ∀ b ∈ u.members, (w.served u b).1 <+: (oneServer env (u.nodes a).applied).1 ∧
      (oneServer env (u.nodes b).applied).2.Same (w.served u b).2 :=
    fun b hb => served_agrees w env (hlin.replicas b hb) hprop (hsteady a ha)
  refine ⟨_, hlin, fun b hb => (hagree b hb).1, fun b hb => ?_, fun ch i x hx => ?_⟩
  · rw [← hlength b hb, ← List.prefix_iff_eq_take.mp (hlin.replicas b hb)]
    exact (hagree b hb).2.contents.symm
  · obtain ⟨hi, hget, -⟩ := hlin.answers ch i x hx
    have hlt := (List.getElem?_eq_some_iff.mp hget).1
    have hone : i - 1 < (oneServer env (u.nodes a).applied).1.length := by
      rwa [oneServer, length_run]
    refine ⟨_, List.getElem?_eq_getElem hone, fun b hb hle => ?_⟩
    have hserved : i - 1 < (w.served u b).1.length := by
      rw [Surroundings.served, length_run, hlength b hb]
      omega
    exact List.getElem?_eq_some_iff.mpr ⟨hserved, (hagree b hb).1.getElem hserved⟩

section OneWrite

/-- `SET k v`, as it is proposed. -/
def setCommand : Bytes := serializeFrame (.command ["SET", "k", "v"])

/-- A test for a `SET` without expiry. -/
def asksSet : Option Request → Bool
  | some (.set _ _ none _ _) => true
  | _ => false

theorem fits_setCommand : (Frame.command ["SET", "k", "v"]).Fits := by
  simp only [Frame.command, List.map, Frame.bulkStr, Frame.Fits, Frame.AllFit]
  decide

theorem oneLine_setCommand : (Frame.command ["SET", "k", "v"]).OneLine := by
  simp [Frame.command, Frame.bulkStr, Frame.OneLine, Frame.AllOneLine]

theorem proposed_setCommand : Proposed setCommand :=
  ⟨{ CommandContext.standalone with raft := some ⟨true, none⟩ }, .command ["SET", "k", "v"],
    ["SET", "k", "v"].map .bulkStr, rfl, fits_setCommand, oneLine_setCommand, rfl⟩

theorem steady_setCommand (s : Store) : SteadyCommand s setCommand := by
  intro frame n r hparse hreq
  rw [setCommand, parseFrame_serializeFrame fits_setCommand oneLine_setCommand, Except.ok.injEq,
    Option.some.injEq, Prod.mk.injEq] at hparse
  obtain ⟨rfl, -⟩ := hparse
  have htest : asksSet (requestOf .raftApply (.command ["SET", "k", "v"])) = true := by decide
  rw [hreq] at htest
  cases r with
  | set key val ttl nx xx =>
    cases ttl with
    | none => exact ⟨id, rfl⟩
    | some _ => cases htest
  | _ => cases htest

/-- `a` leads, and its client is answered with `OK`. -/
theorem raft_serves_as_one_set : ∃ u : RaftCluster,
    Runs.Run RaftCluster.step RaftCluster.KeepsOrder (RaftCluster.init ["a", "b"]) u ∧
      (0, .applied 1 ⟨1, setCommand⟩) ∈ u.answered ∧
      ∃ order, ServedAsOne ⟨fun _ => .raftApply, fun _ => rfl, fun _ => Deployment.nowhere,
        fun _ _ => .plain 0⟩ (fun _ => .plain 0) order (RaftCluster.init ["a", "b"]) u := by
  have hs : (RaftCluster.init ["a", "b"]).Start :=
    RaftCluster.start_init (by decide) (by decide)
  have hrun : (Runs.exec RaftCluster.step RaftCluster.KeepsOrder (RaftCluster.init ["a", "b"])
      [.tick "a", .recv 0, .reply 0, .propose "a" setCommand, .recv 0, .reply 0, .apply "a"]).any
      (fun u => decide ((0, .applied 1 ⟨1, setCommand⟩) ∈ u.answered ∧
        (∀ p ∈ u.pushed, p.2.2.command = setCommand) ∧ ∀ a ∈ u.members,
          (u.nodes a).applied = [] ∨ (u.nodes a).applied = [setCommand])) = true := by
    decide
  obtain ⟨u, hu, hp⟩ := Runs.exists_run_of_exec hrun
  obtain ⟨hanswer, hpushed, happlied⟩ := of_decide_eq_true hp
  refine ⟨u, hu, hanswer, raft_serves_as_one hs (.refl _) hu (fun p hmem => ?_) _ _ fun a ha => ?_⟩
  · rw [hpushed p hmem]
    exact proposed_setCommand
  · rcases happlied a ha with hnone | hone
    · rw [hnone]
      exact trivial
    · rw [hone]
      exact ⟨steady_setCommand ∅, trivial⟩

end OneWrite

end LoonyRedis
