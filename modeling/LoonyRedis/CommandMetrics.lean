import LoonyRedis.Lib.Tally
import LoonyRedis.ReadOnly
import Mathlib.Data.UInt

/-!
# Counting commands

`Metrics` counts commands in two places, by their outcome and by their name, and `record_cmd`
adds to both. `execute` calls it behind `dispatch`, and not on the ways that leave before :
to the Raft log, to another node, and with the errors of routing. The architecture notes say
that these errors are counted.

`isRecorded` is the condition, on the context and the command, under which the call is reached.
It is exact (`routeCommand_isAway`), so a command is counted once if and only if it holds,
under its name as long as the 32 bytes that `execute` reads of a name are all of it
(`counted_once_iff`). The two places agree in any case (`CmdMetrics.Balanced`), and the total
is the number of the commands for which the condition holds. A call that panics (see `Panics`)
does not reach `record_cmd` either; the executions here are those that return.
-/

namespace LoonyRedis

/-! ## The counters -/

/-- The counters of one command name. -/
structure CmdStats where
  ok : UInt64
  err : UInt64
  deriving DecidableEq, Repr

namespace CmdStats

/-- Nothing is counted. -/
def new : CmdStats := ⟨0, 0⟩

/-- `fetch_add` on one of the two. -/
def count (isErr : Bool) (c : CmdStats) : CmdStats :=
  if isErr then { c with err := c.err + 1 } else { c with ok := c.ok + 1 }

/-- The calls of the command, with and without error. -/
def total (c : CmdStats) : UInt64 := c.ok + c.err

end CmdStats

/-- The counters of commands of `Metrics`, those by name with one entry for each name. -/
structure CmdMetrics where
  commandsOk : UInt64
  commandsErr : UInt64
  perCmd : List (String × CmdStats)
  nodup : (perCmd.map Prod.fst).Nodup

namespace CmdMetrics

/-- No command is counted. -/
def new : CmdMetrics := ⟨0, 0, [], List.nodup_nil⟩

/-- Count one call in the totals and in the row of the command. -/
def recordCmd (m : CmdMetrics) (cmd : String) (isErr : Bool) : CmdMetrics where
  commandsOk := if isErr then m.commandsOk else m.commandsOk + 1
  commandsErr := if isErr then m.commandsErr + 1 else m.commandsErr
  perCmd := Tally.update (CmdStats.count isErr) .new cmd m.perCmd
  nodup := Tally.nodup_update m.nodup

/-- The calls of all commands, as `INFO` shows it. -/
def totalCommands (m : CmdMetrics) : UInt64 := m.commandsOk + m.commandsErr

/-- The counters of a name, which are zero before its first command. -/
def stats (m : CmdMetrics) (cmd : String) : CmdStats := Tally.get .new cmd m.perCmd

/-- The counters by outcome are the sums of those by name. -/
def Balanced (m : CmdMetrics) : Prop :=
  m.commandsOk = (m.perCmd.map fun e => e.2.ok).sum ∧
    m.commandsErr = (m.perCmd.map fun e => e.2.err).sum ∧
    m.totalCommands = (m.perCmd.map fun e => e.2.total).sum

/-- A command of the name `cmd`, as it was sent, is counted once, with its outcome. -/
structure CountsOnce (m m' : CmdMetrics) (cmd : Bytes) (isErr : Bool) : Prop where
  total : m'.totalCommands = m.totalCommands + 1
  errors : m'.commandsErr = if isErr then m.commandsErr + 1 else m.commandsErr
  named : ∃ name, Utf8.toBytes name = cmd.map Text.toAsciiUppercase ∧
    m'.stats name = (m.stats name).count isErr ∧
    ∀ other, other ≠ name → m'.stats other = m.stats other

end CmdMetrics

/-! ## Execution with metrics -/

/-- The routing table has the keys of the command on this node. -/
def keysAreMine (cfg : ClusterConfig) (name : String) (args : List Frame) : Bool :=
  match commandSlot name args with
  | .crossSlot => false
  | .slot slot => cfg.isMine slot
  | .none => true

/-- No other path takes the command before `dispatch`. -/
def isRecorded (ctx : CommandContext) (name : String) (args : List Frame) : Bool :=
  ctx.isReplicaReplay ||
    (!isWrite name || (ctx.raft.isNone && ctx.isLeader)) &&
      (name = "CLUSTER" || ctx.cluster.all fun cfg => keysAreMine cfg name args)

/-- A call of `execute` on a node with metrics, with what the other nodes and the Raft log
answer. -/
structure Execution where
  ctx : CommandContext
  observed : ctx.metrics.isSome = true
  elsewhere : Route → Store → Outcome
  env : Env
  frame : Frame

namespace Execution

/-- What `INFO` reads of the metrics is read from the counters. -/
def seeing (x : Execution) (m : CmdMetrics) : CommandContext :=
  { x.ctx with
    metrics := x.ctx.metrics.map fun v => { v with totalCommands := m.totalCommands.toNat } }

/-- `execute`, with the one place where it records the command. -/
def run (x : Execution) (s : Store) (m : CmdMetrics) : Outcome × CmdMetrics :=
  let ctx := x.seeing m
  match route ctx x.frame with
  | .reply f => (⟨f, s, []⟩, m)
  | .dispatch name args =>
    let o := dispatch ctx x.env name args s
    (o, m.recordCmd name o.reply.isError)
  | .remote name args =>
    let o := x.elsewhere (.remote name args) s
    (o, m.recordCmd name o.reply.isError)
  | r => (x.elsewhere r s, m)

/-- The calls one after the other. -/
def runAll : List Execution → Store → CmdMetrics → Store × CmdMetrics
  | [], s, m => (s, m)
  | x :: xs, s, m => runAll xs (x.run s m).1.store (x.run s m).2

/-- The frame is a non-empty array that starts with a bulk string. -/
def isCommand (x : Execution) : Bool := (frameName x.frame).isSome

/-- It is, and reaches `dispatch`. -/
def isCounted (x : Execution) : Bool :=
  match x.frame with
  | .array (some args) => (frameName x.frame).any fun name => isRecorded x.ctx name args
  | _ => false

end Execution

/-! ## Recording -/

section Recording

open scoped UInt64.CommRing

variable {m : CmdMetrics} {cmd : String} {isErr : Bool}

theorem CmdStats.total_count (isErr : Bool) (c : CmdStats) :
    (c.count isErr).total = c.total + 1 := by
  cases isErr
  · exact add_right_comm c.ok 1 c.err
  · exact (add_assoc c.ok c.err 1).symm

theorem CmdStats.count_ne (isErr : Bool) (c : CmdStats) : c.count isErr ≠ c := by
  intro h
  have htotal := congrArg CmdStats.total h
  rw [CmdStats.total_count, add_eq_left] at htotal
  exact absurd htotal (by decide)

namespace CmdMetrics

theorem totalCommands_recordCmd (m : CmdMetrics) (cmd : String) (isErr : Bool) :
    (m.recordCmd cmd isErr).totalCommands = m.totalCommands + 1 := by
  cases isErr
  · exact add_right_comm m.commandsOk 1 m.commandsErr
  · exact (add_assoc m.commandsOk m.commandsErr 1).symm

theorem stats_recordCmd (m : CmdMetrics) (cmd other : String) (isErr : Bool) :
    (m.recordCmd cmd isErr).stats other =
      if cmd = other then (m.stats other).count isErr else m.stats other :=
  Tally.get_update m.perCmd other

theorem balanced_new : new.Balanced := ⟨rfl, rfl, rfl⟩

theorem Balanced.recordCmd (h : m.Balanced) (cmd : String) (isErr : Bool) :
    (m.recordCmd cmd isErr).Balanced := by
  obtain ⟨hok, herr, htotal⟩ := h
  have hok' := Tally.sum_update (k := cmd) (w := CmdStats.ok) (f := CmdStats.count isErr)
    (c := if isErr then 0 else 1) (by intro v; cases isErr <;> simp [CmdStats.count])
    (rfl : CmdStats.new.ok = 0) m.perCmd
  have herr' := Tally.sum_update (k := cmd) (w := CmdStats.err) (f := CmdStats.count isErr)
    (c := if isErr then 1 else 0) (by intro v; cases isErr <;> simp [CmdStats.count])
    (rfl : CmdStats.new.err = 0) m.perCmd
  have htotal' := Tally.sum_update (k := cmd) (w := CmdStats.total) (CmdStats.total_count isErr)
    (rfl : CmdStats.new.total = 0) m.perCmd
  refine ⟨?_, ?_, ?_⟩
  · refine Eq.trans ?_ hok'.symm
    rw [← hok]
    cases isErr
    · rfl
    · exact (add_zero m.commandsOk).symm
  · refine Eq.trans ?_ herr'.symm
    rw [← herr]
    cases isErr
    · exact (add_zero m.commandsErr).symm
    · rfl
  · refine Eq.trans ?_ htotal'.symm
    rw [← htotal, totalCommands_recordCmd]

theorem commandsErr_recordCmd (m : CmdMetrics) (cmd : String) (isErr : Bool) :
    (m.recordCmd cmd isErr).commandsErr =
      if isErr then m.commandsErr + 1 else m.commandsErr := rfl

/-- Without a record the total stays. -/
theorem not_countsOnce_self (m : CmdMetrics) (cmd : Bytes) (isErr : Bool) :
    ¬ m.CountsOnce m cmd isErr := by
  intro h
  have htotal := h.total
  rw [left_eq_add] at htotal
  exact absurd htotal (by decide)

end CmdMetrics

/-- The name that is recorded is the one that was sent, unless it is longer than what is read
of it, or is no text. -/
theorem toBytes_commandName_iff (cmd : Bytes) :
    Utf8.toBytes (commandName cmd) = cmd.map Text.toAsciiUppercase ↔
      cmd.length ≤ 32 ∧ ∃ name, Utf8.toBytes name = cmd.map Text.toAsciiUppercase := by
  constructor
  · intro h
    refine ⟨?_, _, h⟩
    rw [commandName] at h
    cases hread : Utf8.fromUtf8 ((cmd.take 32).map Text.toAsciiUppercase) with
    | none =>
      rw [hread] at h
      have hnil : cmd = [] := List.map_eq_nil_iff.mp h.symm
      rw [hnil]
      exact Nat.zero_le 32
    | some name =>
      rw [hread, Option.getD_some, Utf8.toBytes_of_fromUtf8 hread] at h
      have hlen := congrArg List.length h
      rw [List.length_map, List.length_map, List.length_take] at hlen
      omega
  · rintro ⟨hlen, name, hname⟩
    rw [commandName, List.take_of_length_le hlen, ← hname, Utf8.fromUtf8_toBytes]
    rfl

/-- A recorded command is counted once, under the name that was recorded. -/
theorem countsOnce_recordCmd_iff (m : CmdMetrics) (cmd : Bytes) (isErr : Bool) :
    m.CountsOnce (m.recordCmd (commandName cmd) isErr) cmd isErr ↔
      Utf8.toBytes (commandName cmd) = cmd.map Text.toAsciiUppercase := by
  constructor
  · intro h
    obtain ⟨name, hname, hcount, -⟩ := h.named
    by_cases heq : commandName cmd = name
    · rw [heq]
      exact hname
    · rw [CmdMetrics.stats_recordCmd, if_neg heq] at hcount
      exact absurd hcount.symm (CmdStats.count_ne isErr _)
  · intro h
    refine ⟨m.totalCommands_recordCmd _ _, m.commandsErr_recordCmd _ _, _, h, ?_, ?_⟩
    · rw [CmdMetrics.stats_recordCmd, if_pos rfl]
    · intro other hother
      rw [CmdMetrics.stats_recordCmd, if_neg hother.symm]

end Recording

/-! ## The ways that leave before -/

section Routing

variable {ctx : CommandContext} {name : String} {args : List Frame}

theorem clusterRoute_eq_none_iff (cfg : ClusterConfig) :
    clusterRoute cfg name args = none ↔ keysAreMine cfg name args = true := by
  unfold clusterRoute keysAreMine
  cases commandSlot name args with
  | slot s => cases h : cfg.isMine s <;> simp [h]
  | crossSlot => simp
  | none => simp

/-- A command that this node takes is recorded unless it is a write on a replica. -/
theorem routeHere_isAway (ctx : CommandContext) (name : String) (args : List Frame) :
    (routeHere ctx name args).isAway =
      (isWrite name && !ctx.isReplicaReplay && !ctx.isLeader) := by
  rw [routeHere]
  split
  · next h => rw [h]; rfl
  · next h =>
    rw [Bool.not_eq_true] at h
    rw [h]
    split <;> rfl

/-- A command of a client that is no write of a Raft node goes by the cluster. -/
theorem routeCommand_client (hreplay : ctx.isReplicaReplay = false)
    (hlog : isWrite name = false ∨ ctx.raft = none) :
    routeCommand ctx name args = ctx.cluster.elim (routeHere ctx name args) fun cfg =>
      if name = "CLUSTER" then routeHere ctx name args
      else (clusterRoute cfg name args).getD (routeHere ctx name args) := by
  rw [routeCommand, hreplay]
  rcases hlog with hwrite | hraft
  · rw [hwrite]
    cases ctx.cluster <;> rfl
  · rw [hraft]
    cases ctx.cluster <;> cases isWrite name <;> rfl

theorem elim_cluster_isAway (ctx : CommandContext) (name : String) (args : List Frame) :
    (ctx.cluster.elim (routeHere ctx name args) fun cfg =>
      if name = "CLUSTER" then routeHere ctx name args
      else (clusterRoute cfg name args).getD (routeHere ctx name args)).isAway =
    (!(name = "CLUSTER" || ctx.cluster.all fun cfg => keysAreMine cfg name args) ||
      (routeHere ctx name args).isAway) := by
  cases ctx.cluster with
  | none => simp
  | some cfg =>
    simp only [Option.elim_some, Option.all_some]
    by_cases hname : name = "CLUSTER"
    · rw [if_pos hname, decide_eq_true hname]
      rfl
    · rw [if_neg hname, decide_eq_false hname, Bool.false_or]
      cases hroute : clusterRoute cfg name args with
      | none =>
        rw [(clusterRoute_eq_none_iff cfg).mp hroute]
        rfl
      | some r =>
        have hmine : keysAreMine cfg name args = false := by
          rw [← Bool.not_eq_true, ← clusterRoute_eq_none_iff, hroute]
          exact Option.some_ne_none r
        rw [Option.getD_some, (clusterRoute_isAway hroute).1, hmine]
        rfl

/-- The condition is exact. -/
theorem routeCommand_isAway (ctx : CommandContext) (name : String) (args : List Frame) :
    (routeCommand ctx name args).isAway = !isRecorded ctx name args := by
  have hhere := routeHere_isAway ctx name args
  rw [isRecorded]
  cases hreplay : ctx.isReplicaReplay with
  | true =>
    rw [routeCommand_replay hreplay, hhere, hreplay]
    simp
  | false =>
    rw [hreplay] at hhere
    cases hwrite : isWrite name with
    | false =>
      rw [routeCommand_client hreplay (Or.inl hwrite), elim_cluster_isAway, hhere, hwrite]
      simp
    | true =>
      cases hraft : ctx.raft with
      | none =>
        rw [routeCommand_client hreplay (Or.inr hraft), elim_cluster_isAway, hhere, hwrite]
        cases ctx.isLeader <;> simp
      | some raft =>
        -- a leader proposes the write, another node names the leader
        rw [routeCommand, hreplay, hwrite, hraft]
        simp only
        split <;> rfl

/-- What is taken, and not away, is handled here. -/
theorem routeCommand_isAway_or (ctx : CommandContext) (name : String) (args : List Frame) :
    (routeCommand ctx name args).isAway = true ∨
      routeCommand ctx name args = routeHere ctx name args := by
  rw [routeCommand]
  split
  · split <;> exact Or.inl rfl
  · split
    · exact Or.inr rfl
    · cases hroute : clusterRoute _ name args with
      | none => exact Or.inr rfl
      | some r => exact Or.inl (clusterRoute_isAway hroute).1
  · exact Or.inr rfl

/-- Behind the condition both ways lead to the record. -/
theorem routeCommand_of_isRecorded (h : isRecorded ctx name args = true) :
    routeCommand ctx name args = .remote name args ∨
      routeCommand ctx name args = .dispatch name args := by
  have haway := routeCommand_isAway ctx name args
  rw [h] at haway
  obtain hcon | hhere := routeCommand_isAway_or ctx name args
  · rw [hcon] at haway
    cases haway
  · rw [hhere, routeHere] at haway
    rw [hhere, routeHere]
    split at haway
    · cases haway
    · next hwrite =>
      rw [if_neg hwrite]
      split
      · exact Or.inl rfl
      · exact Or.inr rfl

end Routing

/-! ## Calls and runs -/

namespace Execution

variable {x : Execution} {s : Store} {m : CmdMetrics} {name : String} {args : List Frame}

/-- What `INFO` reads has no influence on the way of a command. -/
theorem isRecorded_seeing (x : Execution) (m : CmdMetrics) (name : String) (args : List Frame) :
    isRecorded (x.seeing m) name args = isRecorded x.ctx name args := rfl

theorem run_of_isRecorded
    (hroute : route (x.seeing m) x.frame = routeCommand (x.seeing m) name args)
    (h : isRecorded x.ctx name args = true) :
    (x.run s m).2 = m.recordCmd name (x.run s m).1.reply.isError := by
  have hseeing : isRecorded (x.seeing m) name args = true := h
  rw [run]
  obtain hremote | hdispatch := routeCommand_of_isRecorded hseeing
  · rw [hroute, hremote]
  · rw [hroute, hdispatch]

theorem run_of_isAway (h : (route (x.seeing m) x.frame).isAway = true) : (x.run s m).2 = m := by
  rw [run]
  cases hroute : route (x.seeing m) x.frame with
  | reply => rfl
  | propose => rfl
  | proxy => rfl
  | remote => rw [hroute] at h; cases h
  | dispatch => rw [hroute] at h; cases h

/-- A call records the command if it is counted, and nothing otherwise. -/
theorem run_metrics (x : Execution) (s : Store) (m : CmdMetrics) :
    (x.run s m).2 = if x.isCounted then
      m.recordCmd ((frameName x.frame).getD "") (x.run s m).1.reply.isError else m := by
  cases hname : frameName x.frame with
  | none =>
    have hcounted : x.isCounted = false := by
      rw [isCounted]
      split
      · rw [hname]
        rfl
      · rfl
    obtain ⟨f, hroute⟩ := route_of_no_frameName hname (x.seeing m)
    rw [hcounted, run_of_isAway (by rw [hroute]; rfl)]
    rfl
  | some name =>
    obtain ⟨args, hframe, hroute⟩ := route_of_frameName hname
    have hcounted : x.isCounted = isRecorded x.ctx name args := by
      rw [isCounted, hname, hframe]
      rfl
    rw [hcounted]
    split
    · next h => exact run_of_isRecorded (hroute _) h
    · next h =>
      refine run_of_isAway ?_
      rw [hroute, routeCommand_isAway, isRecorded_seeing, Bool.eq_false_iff.mpr h]
      rfl

/-- Counted calls are of commands. -/
theorem isCommand_of_isCounted (h : x.isCounted = true) : x.isCommand = true := by
  rw [isCounted] at h
  split at h
  · obtain ⟨name, hname, -⟩ := (Option.any_eq_true _ _).mp h
    rw [isCommand, hname]
    rfl
  · cases h

/-- The two places agree after every run. -/
theorem balanced_runAll (xs : List Execution) (h : m.Balanced) : (runAll xs s m).2.Balanced := by
  induction xs generalizing s m with
  | nil => exact h
  | cons x xs ih =>
    refine ih ?_
    rw [run_metrics]
    split
    · exact h.recordCmd _ _
    · exact h

/-- The total counts the calls that are counted, whatever they did to the store. -/
theorem totalCommands_runAll (xs : List Execution) (s : Store) (m : CmdMetrics) :
    (runAll xs s m).2.totalCommands = m.totalCommands + UInt64.ofNat (xs.countP isCounted) := by
  induction xs generalizing s m with
  | nil => exact (UInt64.add_zero _).symm
  | cons x xs ih =>
    rw [runAll, ih, run_metrics, List.countP_cons]
    split
    · rw [CmdMetrics.totalCommands_recordCmd, UInt64.ofNat_add, UInt64.add_assoc,
        UInt64.add_comm 1]
      rfl
    · rfl

/-- If all commands are counted, the total is their number. -/
theorem countP_isCommand {xs : List Execution}
    (h : ∀ x ∈ xs, x.isCommand = true → x.isCounted = true) :
    xs.countP isCommand = xs.countP isCounted :=
  List.countP_congr fun x hx => ⟨h x hx, isCommand_of_isCounted⟩

/-- **A command is counted once exactly if it reaches `dispatch`**, and then by its name if
`execute` reads all of it. The counters always agree, and their total is the number of the
commands that were answered if all of them reach `dispatch`. -/
theorem counted_once_iff (x : Execution) (s : Store) (m : CmdMetrics) (xs : List Execution)
    (hframe : x.frame = .array (some args)) {cmd : Bytes} (hcmd : bulkBytes args 0 = some cmd) :
    (m.CountsOnce (x.run s m).2 cmd (x.run s m).1.reply.isError ↔
      isRecorded x.ctx (commandName cmd) args = true ∧ cmd.length ≤ 32 ∧
        ∃ name, Utf8.toBytes name = cmd.map Text.toAsciiUppercase) ∧
    (runAll xs s .new).2.Balanced ∧
    (runAll xs s .new).2.totalCommands = UInt64.ofNat (xs.countP isCounted) ∧
    ((∀ y ∈ xs, y.isCommand = true → y.isCounted = true) →
      (runAll xs s .new).2.totalCommands = UInt64.ofNat (xs.countP isCommand)) := by
  have htotal : (runAll xs s .new).2.totalCommands = UInt64.ofNat (xs.countP isCounted) := by
    rw [totalCommands_runAll]
    exact UInt64.zero_add _
  refine ⟨?_, balanced_runAll xs CmdMetrics.balanced_new, htotal, ?_⟩
  · have hname : frameName x.frame = some (commandName cmd) := by
      rw [hframe, frameName, hcmd]
      rfl
    have hcounted : x.isCounted = isRecorded x.ctx (commandName cmd) args := by
      rw [isCounted, hname, hframe]
      rfl
    rw [run_metrics, hcounted, hname, Option.getD_some]
    split
    · next h =>
      rw [countsOnce_recordCmd_iff, toBytes_commandName_iff]
      exact (and_iff_right h).symm
    · next h => exact iff_of_false (m.not_countsOnce_self cmd _) fun hcon => h hcon.1
  · intro h
    rw [countP_isCommand h]
    exact htotal

/-- A call of a client on a node with metrics that leads, or is a replica. -/
def ofClient (leads : Bool) (words : List String) : Execution where
  ctx := { CommandContext.standalone with isLeader := leads, metrics := some ⟨6379, 0, 0, 0, 0⟩ }
  observed := rfl
  elsewhere := fun _ s => ⟨.ok, s, []⟩
  env := .plain 0
  frame := .command words

/-- A `SET` on a replica is answered with an error, and not counted. -/
theorem not_counted_replica :
    ((ofClient false ["SET", "k", "v"]).run ∅ .new).1.reply =
        .error "READONLY You can't write against a read only replica." ∧
      ¬ CmdMetrics.new.CountsOnce ((ofClient false ["SET", "k", "v"]).run ∅ .new).2
        (Utf8.toBytes "SET") true := by
  have haway : (route ((ofClient false ["SET", "k", "v"]).seeing .new)
      (ofClient false ["SET", "k", "v"]).frame).isAway = true := by decide
  refine ⟨by decide, ?_⟩
  rw [run_of_isAway haway]
  exact CmdMetrics.new.not_countsOnce_self _ _

/-- A leader counts what it is sent. -/
theorem counted_once_leader :
    CmdMetrics.new.CountsOnce ((ofClient true ["ping"]).run ∅ .new).2 (Utf8.toBytes "ping")
        ((ofClient true ["ping"]).run ∅ .new).1.reply.isError ∧
      (runAll [ofClient true ["ping"], ofClient true ["SET", "k", "v"]] ∅
        .new).2.totalCommands = 2 := by
  have hframe : (ofClient true ["ping"]).frame = .array (some [.bulkStr "ping"]) := rfl
  have hcmd : bulkBytes [.bulkStr "ping"] 0 = some (Utf8.toBytes "ping") := rfl
  have h := counted_once_iff (ofClient true ["ping"]) ∅ .new
    [ofClient true ["ping"], ofClient true ["SET", "k", "v"]] hframe hcmd
  refine ⟨h.1.mpr ⟨by decide, by decide, "PING", by decide⟩, h.2.2.2 ?_⟩
  intro y hy _
  simp only [List.mem_cons, List.not_mem_nil, or_false] at hy
  rcases hy with rfl | rfl
  · decide
  · decide

end Execution

end LoonyRedis
