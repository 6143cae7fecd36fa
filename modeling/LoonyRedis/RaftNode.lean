import LoonyRedis.Lib.Splice
import LoonyRedis.Lib.Utf8
import Std.Data.ExtTreeMap

/-!
# One Raft node

The state machine of `consensus/mod.rs`. A handler is a function of the node's state; the
messages it spawns are part of its result. Timers are left out, so a timeout may fire at
any moment, and `send_rpc_to` is left to the cluster, which may delay, reorder or lose a
message.

`u64` terms and indexes are natural numbers : a run whose terms stay below `2^64` is a
run of this model. A reply channel (`oneshot::Sender`) is a number, and the state machine
behind `apply_fn` is the list of the commands it was handed.
-/

open Std (ExtTreeMap)

namespace LoonyRedis

/-- A node is named by its Raft address. -/
abbrev NodeId := String

/-- A reply channel of a client proposal. -/
abbrev Chan := ℕ

/-- A command in the log, with the term in which it was appended. -/
structure LogEntry where
  term : ℕ
  command : Bytes
  deriving DecidableEq, Repr

/-- The entry at index 0 of every log. -/
def LogEntry.sentinel : LogEntry := ⟨0, []⟩

/-- What a node is in its term. -/
inductive Role
  | follower
  | candidate
  | leader
  deriving DecidableEq, Repr

/-- The messages between nodes. -/
inductive RaftRpc
  | requestVote (term : ℕ) (candidateId : NodeId) (lastLogIndex lastLogTerm : ℕ)
  | requestVoteResp (term : ℕ) (voteGranted : Bool)
  | appendEntries (term : ℕ) (leaderId : NodeId) (prevLogIndex prevLogTerm : ℕ)
      (entries : List LogEntry) (leaderCommit : ℕ)
  | appendEntriesResp (term : ℕ) (success : Bool) (matchIndex : ℕ)
  deriving DecidableEq, Repr

/-- What a client receives on its reply channel : the result of the entry applied at an
index, or the refusal of a node that does not lead. -/
inductive Answer
  | applied (index : ℕ) (entry : LogEntry)
  | moved (leader : String)
  deriving DecidableEq, Repr

/-- The state of a node, and what its clients wait for. -/
structure RaftNode where
  id : NodeId
  peers : List NodeId
  currentTerm : ℕ
  votedFor : Option NodeId
  /-- `log[0]` is the sentinel. -/
  log : List LogEntry
  commitIndex : ℕ
  lastApplied : ℕ
  nextIndex : ExtTreeMap NodeId ℕ compare
  matchIndex : ExtTreeMap NodeId ℕ compare
  role : Role
  votesReceived : ℕ
  /-- Log index to reply channel of the proposal appended there. -/
  pending : ExtTreeMap ℕ Chan compare
  isLeaderFlag : Bool
  leaderIdShared : Option NodeId
  /-- The commands applied so far, the one of index 1 first. -/
  applied : List Bytes

/-- The node `start_raft` builds. -/
def startRaft (id : NodeId) (peers : List NodeId) : RaftNode where
  id := id
  peers := peers
  currentTerm := 0
  votedFor := none
  log := [LogEntry.sentinel]
  commitIndex := 0
  lastApplied := 0
  nextIndex := ∅
  matchIndex := ∅
  role := .follower
  votesReceived := 0
  pending := ∅
  isLeaderFlag := false
  leaderIdShared := none
  applied := []

namespace RaftNode

variable (n : RaftNode)

/-- A majority of the cluster, which is the peers and the node itself. -/
def quorum : ℕ := (n.peers.length + 1) / 2 + 1

/-- The sentinel has index 0. -/
def lastLogIndex : ℕ := n.log.length - 1

/-- The term of the last entry, 0 for the sentinel. -/
def lastLogTerm : ℕ := (n.log.getLast?.map LogEntry.term).getD 0

/-- The term at `index`, 0 past the end. -/
def logTermAt (index : ℕ) : ℕ := (n.log[index]?.map LogEntry.term).getD 0

/-- Become a follower; in a newer term, without a vote. -/
def stepDown (term : ℕ) : RaftNode :=
  let n := if term > n.currentTerm then { n with currentTerm := term, votedFor := none } else n
  { n with role := .follower, isLeaderFlag := false }

/-- Remember who leads. -/
def setLeader (leaderId : NodeId) : RaftNode := { n with leaderIdShared := some leaderId }

section stepDown

variable (term : ℕ)

@[simp] theorem stepDown_currentTerm :
    (n.stepDown term).currentTerm = max n.currentTerm term := by
  unfold stepDown
  split <;> simp <;> omega

theorem stepDown_votedFor :
    (n.stepDown term).votedFor = if term > n.currentTerm then none else n.votedFor := by
  unfold stepDown
  split <;> rfl

@[simp] theorem stepDown_role : (n.stepDown term).role = .follower := rfl

@[simp] theorem stepDown_id : (n.stepDown term).id = n.id := by
  unfold stepDown
  split <;> rfl

@[simp] theorem stepDown_peers : (n.stepDown term).peers = n.peers := by
  unfold stepDown
  split <;> rfl

@[simp] theorem stepDown_log : (n.stepDown term).log = n.log := by
  unfold stepDown
  split <;> rfl

@[simp] theorem stepDown_commitIndex : (n.stepDown term).commitIndex = n.commitIndex := by
  unfold stepDown
  split <;> rfl

@[simp] theorem stepDown_lastApplied : (n.stepDown term).lastApplied = n.lastApplied := by
  unfold stepDown
  split <;> rfl

@[simp] theorem stepDown_applied : (n.stepDown term).applied = n.applied := by
  unfold stepDown
  split <;> rfl

@[simp] theorem stepDown_pending : (n.stepDown term).pending = n.pending := by
  unfold stepDown
  split <;> rfl

end stepDown

/-! ## Leader election -/

/-- A new term, a vote for itself, and a request for a vote to every peer. -/
def startElection : RaftNode × List (NodeId × RaftRpc) :=
  let n := { n with
    currentTerm := n.currentTerm + 1
    role := .candidate
    votedFor := some n.id
    votesReceived := 1 }
  (n, n.peers.map fun peer =>
    (peer, .requestVote n.currentTerm n.id n.lastLogIndex n.lastLogTerm))

/-- Start the indexes of all peers anew. -/
def becomeLeader : RaftNode :=
  let next := n.lastLogIndex + 1
  { n.setLeader n.id with
    role := .leader
    isLeaderFlag := true
    nextIndex := n.peers.foldl (fun m peer => m.insert peer next) n.nextIndex
    matchIndex := n.peers.foldl (fun m peer => m.insert peer 0) n.matchIndex }

/-- Count a vote for the election of this term; the last one needed makes a leader. -/
def handleVoteResponse : RaftRpc → RaftNode
  | .requestVoteResp term granted =>
    if term > n.currentTerm then n.stepDown term
    else if n.role ≠ .candidate ∨ term < n.currentTerm then n
    else if granted then
      let n := { n with votesReceived := n.votesReceived + 1 }
      if n.votesReceived ≥ n.quorum then n.becomeLeader else n
    else n
  | _ => n

/-! ## AppendEntries, leader side -/

/-- The request for `peer` : everything from its next index on. -/
def sendAppendEntriesTo (peer : NodeId) : RaftRpc :=
  let next := n.nextIndex[peer]?.getD 1
  let prevIndex := next - 1
  let entries := if next ≤ n.log.length - 1 then n.log.drop next else []
  .appendEntries n.currentTerm n.id prevIndex (n.logTermAt prevIndex) entries n.commitIndex

/-- A request to every peer, for a heartbeat and after an append. -/
def sendHeartbeats : List (NodeId × RaftRpc) :=
  n.peers.map fun peer => (peer, n.sendAppendEntriesTo peer)

/-- The peers of `match_index` known to hold index `i`. -/
def matching (i : ℕ) : ℕ := (n.matchIndex.values.filter fun m => i ≤ m).length

/-- The highest index above `commit_index` of the current term that a majority holds. -/
def tryAdvanceCommit : RaftNode :=
  let last := n.lastLogIndex
  match (List.range' (n.commitIndex + 1) (last - n.commitIndex)).reverse.find? fun i =>
      n.logTermAt i = n.currentTerm ∧ 1 + n.matching i ≥ n.quorum with
  | some i => { n with commitIndex := i }
  | none => n

/-- Record how far a peer has come. After a refusal, the next try is one entry earlier. -/
def handleAppendResponse (peer : NodeId) : RaftRpc → RaftNode
  | .appendEntriesResp term success matchIdx =>
    if term > n.currentTerm then n.stepDown term
    else if n.role ≠ .leader then n
    else if success then
      tryAdvanceCommit { n with
        nextIndex := n.nextIndex.insert peer (matchIdx + 1)
        matchIndex := n.matchIndex.insert peer matchIdx }
    else
      let next := n.nextIndex[peer]?.getD 1
      { n with nextIndex := n.nextIndex.insert peer (if next > 1 then next - 1 else next) }
  | _ => n

/-! ## Incoming requests -/

/-- The candidate's log is at least as up to date as this one. -/
def upToDate (lastLogIndex lastLogTerm : ℕ) : Bool :=
  lastLogTerm > n.lastLogTerm ∨
    (lastLogTerm = n.lastLogTerm ∧ lastLogIndex ≥ n.lastLogIndex)

/-- Grant the vote of the term once, to a candidate whose log is not behind. -/
def handleRequestVote (term : ℕ) (candidateId : NodeId) (lastLogIndex lastLogTerm : ℕ) :
    RaftNode × RaftRpc :=
  let n := if term > n.currentTerm then n.stepDown term else n
  let grant : Bool := term ≥ n.currentTerm ∧
    (n.votedFor = none ∨ n.votedFor = some candidateId) ∧ n.upToDate lastLogIndex lastLogTerm
  let n := if grant then { n with votedFor := some candidateId } else n
  (n, .requestVoteResp n.currentTerm grant)

/-- The log holds an entry of term `prevLogTerm` at `prevLogIndex`, or the request
starts at the sentinel. -/
def prevLogOk (prevLogIndex prevLogTerm : ℕ) : Bool :=
  prevLogIndex = 0 ∨ n.log[prevLogIndex]?.map LogEntry.term = some prevLogTerm

/-- Take over the entries of a leader, if the log agrees up to them. -/
def handleAppendEntries (term : ℕ) (leaderId : NodeId) (prevLogIndex prevLogTerm : ℕ)
    (entries : List LogEntry) (leaderCommit : ℕ) : RaftNode × RaftRpc :=
  if term < n.currentTerm then (n, .appendEntriesResp n.currentTerm false 0)
  else
    let n := (n.stepDown term).setLeader leaderId
    if ¬ n.prevLogOk prevLogIndex prevLogTerm then
      (n, .appendEntriesResp n.currentTerm false 0)
    else
      let n := { n with log := Splice.splice LogEntry.term n.log (prevLogIndex + 1) entries }
      let n := if leaderCommit > n.commitIndex then
        { n with commitIndex := min leaderCommit n.lastLogIndex } else n
      (n, .appendEntriesResp n.currentTerm true n.lastLogIndex)

/-- An incoming RPC; a response among the requests is dropped. -/
def handleRpc : RaftRpc → Option (RaftNode × RaftRpc)
  | .requestVote term candidateId lastLogIndex lastLogTerm =>
    some (n.handleRequestVote term candidateId lastLogIndex lastLogTerm)
  | .appendEntries term leaderId prevLogIndex prevLogTerm entries leaderCommit =>
    some (n.handleAppendEntries term leaderId prevLogIndex prevLogTerm entries leaderCommit)
  | _ => none

variable {n} in
theorem handleRpc_eq_some {q : RaftRpc} {r : RaftNode × RaftRpc} (h : n.handleRpc q = some r) :
    (∃ term cand lli llt, q = .requestVote term cand lli llt ∧
      n.handleRequestVote term cand lli llt = r) ∨
    ∃ term leaderId prev prevTerm entries commit,
      q = .appendEntries term leaderId prev prevTerm entries commit ∧
        n.handleAppendEntries term leaderId prev prevTerm entries commit = r := by
  cases q with
  | requestVote => exact Or.inl ⟨_, _, _, _, rfl, Option.some.inj h⟩
  | appendEntries => exact Or.inr ⟨_, _, _, _, _, _, rfl, Option.some.inj h⟩
  | requestVoteResp => cases h
  | appendEntriesResp => cases h

/-! ## Client proposals -/

/-- Append a command of a client, who waits for the reply at its index, and send it to the
peers. -/
def appendProposal (command : Bytes) (reply : Chan) : RaftNode × List (NodeId × RaftRpc) :=
  let index := n.log.length
  let n := { n with
    log := n.log ++ [⟨n.currentTerm, command⟩]
    pending := n.pending.insert index reply }
  (n, n.sendHeartbeats)

/-- One iteration of the loop of `apply_committed`, with the answer it sends. Reading
past the end of the log panics. -/
def applyNext : Option (RaftNode × Option (Chan × Answer)) :=
  let index := n.lastApplied + 1
  n.log[index]?.map fun entry =>
    ({ n with
        lastApplied := index
        applied := n.applied ++ [entry.command]
        pending := n.pending.erase index },
      n.pending[index]?.map fun reply => (reply, .applied index entry))

/-- The loop of `run_node` is at its top : nothing is left to apply. -/
def idle : Prop := n.commitIndex ≤ n.lastApplied

/-- The two indexes are compared. -/
instance : Decidable n.idle := inferInstanceAs (Decidable (_ ≤ _))

end RaftNode

end LoonyRedis
