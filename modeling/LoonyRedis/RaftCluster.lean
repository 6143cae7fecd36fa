import LoonyRedis.Lib.Runs
import LoonyRedis.RaftNode
import Mathlib.Logic.Function.Basic

/-!
# A cluster of Raft nodes

`run_node` of every node, with the calls between them. A call is the task that
`send_rpc_to` runs : it has a caller, a callee and a request, and later a reply. The
request is handled at most once and the reply delivered at most once; between these
steps a call may wait for ever, overtake others or be lost. A node that stops is one
that takes no more steps.

`Event` has one constructor for each branch of the `select!` of `run_node`, one for a
lost call and one for an iteration of `apply_committed`, which a node runs until it is
`idle` before it looks at the next event.

The cluster also keeps what clients see : `pushed` records the entry `append_proposal`
pushed for each reply channel, `answered` what was sent on it.
-/

open Std (ExtTreeMap)

namespace LoonyRedis

/-- A request in flight, and its reply once the callee has handled it. -/
structure Call where
  caller : NodeId
  callee : NodeId
  request : RaftRpc
  reply : Option RaftRpc
  deriving DecidableEq, Repr

/-- The nodes, the calls between them, and what their clients were promised and told. -/
structure RaftCluster where
  members : List NodeId
  nodes : NodeId → RaftNode
  calls : List Call
  /-- The number of reply channels opened so far. -/
  opened : ℕ
  pushed : List (Chan × ℕ × LogEntry)
  answered : List (Chan × Answer)

/-- The steps of the nodes and of the network, in any order. -/
inductive Event
  /-- The sleep of the loop of a node is over. -/
  | tick (node : NodeId)
  /-- A request reaches its callee. -/
  | recv (call : ℕ)
  /-- A reply reaches its caller. -/
  | reply (call : ℕ)
  /-- A call is lost. -/
  | drop (call : ℕ)
  /-- A client proposes a command. -/
  | propose (node : NodeId) (command : Bytes)
  /-- A node applies its next committed entry. -/
  | apply (node : NodeId)
  deriving DecidableEq, Repr

namespace RaftCluster

variable (s : RaftCluster)

/-- The node `a` moves on. -/
def setNode (a : NodeId) (n : RaftNode) : RaftCluster :=
  { s with nodes := Function.update s.nodes a n }

/-- The calls for the messages a node spawns. -/
def send (a : NodeId) (out : List (NodeId × RaftRpc)) : RaftCluster :=
  { s with calls := s.calls ++ out.map fun m => ⟨a, m.1, m.2, none⟩ }

/-- The caller's handler for a reply, chosen by the channel its task writes to. -/
def handleReply (n : RaftNode) (c : Call) (r : RaftRpc) : Option RaftNode :=
  match c.request with
  | .requestVote .. => some (n.handleVoteResponse r)
  | .appendEntries .. => some (n.handleAppendResponse c.callee r)
  | _ => none

/-- What an event does, if it can happen. -/
def step : Event → Option RaftCluster
  | .tick a =>
    if a ∈ s.members ∧ (s.nodes a).idle then
      if (s.nodes a).role = .leader then some (s.send a (s.nodes a).sendHeartbeats)
      else
        let r := (s.nodes a).startElection
        some ((s.setNode a r.1).send a r.2)
    else none
  | .recv k => do
    let c ← s.calls[k]?
    if c.reply = none ∧ (s.nodes c.callee).idle then
      let r ← (s.nodes c.callee).handleRpc c.request
      some { s.setNode c.callee r.1 with calls := s.calls.set k { c with reply := some r.2 } }
    else none
  | .reply k => do
    let c ← s.calls[k]?
    let r ← c.reply
    if (s.nodes c.caller).idle then
      let n ← handleReply (s.nodes c.caller) c r
      some { s.setNode c.caller n with calls := s.calls.eraseIdx k }
    else none
  | .drop k => if k < s.calls.length then some { s with calls := s.calls.eraseIdx k } else none
  | .propose a command =>
    if a ∈ s.members ∧ (s.nodes a).idle then
      let s' := { s with opened := s.opened + 1 }
      if (s.nodes a).role = .leader then
        let r := (s.nodes a).appendProposal command s.opened
        some { (s'.setNode a r.1).send a r.2 with
          pushed := s.pushed ++
            [(s.opened, (s.nodes a).log.length, ⟨(s.nodes a).currentTerm, command⟩)] }
      else
        some { s' with answered := s.answered ++
          [(s.opened, .moved ((s.nodes a).leaderIdShared.getD ""))] }
    else none
  | .apply a =>
    if a ∈ s.members ∧ (s.nodes a).lastApplied < (s.nodes a).commitIndex then do
      let r ← (s.nodes a).applyNext
      some { s.setNode a r.1 with answered := s.answered ++ r.2.toList }
    else none

/-- What a step can do, one constructor for each branch. -/
inductive Move : Event → RaftCluster → Prop
  | heartbeat {a : NodeId} (ha : a ∈ s.members) (hrole : (s.nodes a).role = .leader) :
    Move (.tick a) (s.send a (s.nodes a).sendHeartbeats)
  | elect {a : NodeId} (ha : a ∈ s.members) (hrole : (s.nodes a).role ≠ .leader) :
    Move (.tick a)
      ((s.setNode a (s.nodes a).startElection.1).send a (s.nodes a).startElection.2)
  | recvVote {k : ℕ} {c : Call} {term : ℕ} {cand : NodeId} {lli llt : ℕ} {r : RaftNode × RaftRpc}
    (hk : s.calls[k]? = some c) (hreq : c.request = .requestVote term cand lli llt)
    (hreply : c.reply = none)
    (hr : (s.nodes c.callee).handleRequestVote term cand lli llt = r) :
    Move (.recv k)
      { s.setNode c.callee r.1 with calls := s.calls.set k { c with reply := some r.2 } }
  | recvAppend {k : ℕ} {c : Call} {term : ℕ} {leaderId : NodeId} {prev prevTerm : ℕ}
    {entries : List LogEntry} {commit : ℕ} {r : RaftNode × RaftRpc}
    (hk : s.calls[k]? = some c)
    (hreq : c.request = .appendEntries term leaderId prev prevTerm entries commit)
    (hreply : c.reply = none) (hidle : (s.nodes c.callee).idle)
    (hr : (s.nodes c.callee).handleAppendEntries term leaderId prev prevTerm entries commit
      = r) :
    Move (.recv k)
      { s.setNode c.callee r.1 with calls := s.calls.set k { c with reply := some r.2 } }
  | replyVote {k : ℕ} {c : Call} {r : RaftRpc} {term : ℕ} {cand : NodeId} {lli llt : ℕ}
    (hk : s.calls[k]? = some c) (hreq : c.request = .requestVote term cand lli llt)
    (hreply : c.reply = some r) :
    Move (.reply k)
      { s.setNode c.caller ((s.nodes c.caller).handleVoteResponse r) with
        calls := s.calls.eraseIdx k }
  | replyAppend {k : ℕ} {c : Call} {r : RaftRpc} {term : ℕ} {leaderId : NodeId}
    {prev prevTerm : ℕ} {entries : List LogEntry} {commit : ℕ}
    (hk : s.calls[k]? = some c)
    (hreq : c.request = .appendEntries term leaderId prev prevTerm entries commit)
    (hreply : c.reply = some r) :
    Move (.reply k)
      { s.setNode c.caller ((s.nodes c.caller).handleAppendResponse c.callee r) with
        calls := s.calls.eraseIdx k }
  | drop {k : ℕ} : Move (.drop k) { s with calls := s.calls.eraseIdx k }
  | accept {a : NodeId} {command : Bytes} (ha : a ∈ s.members)
    (hrole : (s.nodes a).role = .leader) :
    Move (.propose a command)
      { ({ s with opened := s.opened + 1 }.setNode a
          ((s.nodes a).appendProposal command s.opened).1).send a
          ((s.nodes a).appendProposal command s.opened).2 with
        pushed := s.pushed ++
          [(s.opened, (s.nodes a).log.length, ⟨(s.nodes a).currentTerm, command⟩)] }
  | refuse {a : NodeId} {command : Bytes} (ha : a ∈ s.members)
    (hrole : (s.nodes a).role ≠ .leader) :
    Move (.propose a command)
      { s with
        opened := s.opened + 1
        answered := s.answered ++ [(s.opened, .moved ((s.nodes a).leaderIdShared.getD ""))] }
  | apply {a : NodeId} {r : RaftNode × Option (Chan × Answer)} (ha : a ∈ s.members)
    (hlt : (s.nodes a).lastApplied < (s.nodes a).commitIndex)
    (hr : (s.nodes a).applyNext = some r) :
    Move (.apply a) { s.setNode a r.1 with answered := s.answered ++ r.2.toList }

variable {s} in
theorem move_of_step {e : Event} {t : RaftCluster} (h : s.step e = some t) : s.Move e t := by
  cases e with
  | tick a =>
    simp only [step] at h
    split at h
    · next hc =>
      split at h <;> cases h
      · next hrole => exact .heartbeat hc.1 hrole
      · next hrole => exact .elect hc.1 hrole
    · cases h
  | recv k =>
    simp only [step, Option.bind_eq_bind, Option.bind_eq_some_iff] at h
    obtain ⟨c, hk, h⟩ := h
    split at h
    · next hc =>
      obtain ⟨r, hr, h⟩ := Option.bind_eq_some_iff.mp h
      cases h
      obtain ⟨_, _, _, _, hreq, hr⟩ | ⟨_, _, _, _, _, _, hreq, hr⟩ :=
        RaftNode.handleRpc_eq_some hr
      · exact .recvVote hk hreq hc.1 hr
      · exact .recvAppend hk hreq hc.1 hc.2 hr
    · cases h
  | reply k =>
    simp only [step, Option.bind_eq_bind, Option.bind_eq_some_iff] at h
    obtain ⟨c, hk, r, hr, h⟩ := h
    split at h
    · obtain ⟨n, hn, h⟩ := Option.bind_eq_some_iff.mp h
      cases h
      simp only [handleReply] at hn
      generalize hreq : c.request = q at hn
      cases q with
      | requestVote term cand lli llt =>
        obtain rfl := Option.some.inj hn
        exact .replyVote hk hreq hr
      | appendEntries term l prev prevTerm entries commit =>
        obtain rfl := Option.some.inj hn
        exact .replyAppend hk hreq hr
      | requestVoteResp => cases hn
      | appendEntriesResp => cases hn
    · cases h
  | drop k =>
    simp only [step] at h
    split at h <;> cases h
    exact .drop
  | propose a command =>
    simp only [step] at h
    split at h
    · next hc =>
      split at h <;> cases h
      · next hrole => exact .accept hc.1 hrole
      · next hrole => exact .refuse hc.1 hrole
    · cases h
  | apply a =>
    simp only [step] at h
    split at h
    · next hc =>
      obtain ⟨r, hr, h⟩ := Option.bind_eq_some_iff.mp h
      cases h
      exact .apply hc.1 hc.2 hr
    · cases h

/-! ## A step seen from one node and from one call -/

/-- What a step can make of node `b`. -/
inductive NodeMove (b : NodeId) : Event → RaftNode → Prop
  | stay {e : Event} : NodeMove b e (s.nodes b)
  | elect (hb : b ∈ s.members) (hrole : (s.nodes b).role ≠ .leader) :
    NodeMove b (.tick b) (s.nodes b).startElection.1
  | grant {k : ℕ} {c : Call} {term : ℕ} {cand : NodeId} {lli llt : ℕ}
    (hk : s.calls[k]? = some c) (hb : c.callee = b)
    (hreq : c.request = .requestVote term cand lli llt) :
    NodeMove b (.recv k) ((s.nodes b).handleRequestVote term cand lli llt).1
  | append {k : ℕ} {c : Call} {term : ℕ} {leaderId : NodeId} {prev prevTerm : ℕ}
    {entries : List LogEntry} {commit : ℕ} (hk : s.calls[k]? = some c) (hb : c.callee = b)
    (hreply : c.reply = none) (hidle : (s.nodes b).idle)
    (hreq : c.request = .appendEntries term leaderId prev prevTerm entries commit) :
    NodeMove b (.recv k)
      ((s.nodes b).handleAppendEntries term leaderId prev prevTerm entries commit).1
  | countVote {k : ℕ} {c : Call} {r : RaftRpc} (hk : s.calls[k]? = some c) (hb : c.caller = b)
    (hreply : c.reply = some r) : NodeMove b (.reply k) ((s.nodes b).handleVoteResponse r)
  | countAppend {k : ℕ} {c : Call} {r : RaftRpc} {term : ℕ} {leaderId : NodeId}
    {prev prevTerm : ℕ} {entries : List LogEntry} {commit : ℕ}
    (hk : s.calls[k]? = some c) (hb : c.caller = b)
    (hreq : c.request = .appendEntries term leaderId prev prevTerm entries commit)
    (hreply : c.reply = some r) :
    NodeMove b (.reply k) ((s.nodes b).handleAppendResponse c.callee r)
  | propose {command : Bytes} (hb : b ∈ s.members) (hrole : (s.nodes b).role = .leader) :
    NodeMove b (.propose b command) ((s.nodes b).appendProposal command s.opened).1
  | apply {r : RaftNode × Option (Chan × Answer)}
    (hlt : (s.nodes b).lastApplied < (s.nodes b).commitIndex)
    (hr : (s.nodes b).applyNext = some r) : NodeMove b (.apply b) r.1

/-- Where the calls after a step to `t` come from. -/
inductive CallMove (t : RaftCluster) : Event → Call → Prop
  | old {e : Event} {c : Call} (hc : c ∈ s.calls) : CallMove t e c
  | append {e : Event} {a p : NodeId} (ha : a ∈ s.members) (hrole : (t.nodes a).role = .leader)
    (hp : p ∈ (t.nodes a).peers) :
    CallMove t e ⟨a, p, (t.nodes a).sendAppendEntriesTo p, none⟩
  | request {e : Event} {a p : NodeId} (ha : a ∈ s.members)
    (hrole : (t.nodes a).role = .candidate) (hp : p ∈ (t.nodes a).peers) :
    CallMove t e ⟨a, p, .requestVote (t.nodes a).currentTerm (t.nodes a).id
      (t.nodes a).lastLogIndex (t.nodes a).lastLogTerm, none⟩
  | granted {k : ℕ} {c : Call} {term : ℕ} {cand : NodeId} {lli llt : ℕ} {r : RaftNode × RaftRpc}
    (hk : s.calls[k]? = some c) (hreq : c.request = .requestVote term cand lli llt)
    (hr : (s.nodes c.callee).handleRequestVote term cand lli llt = r)
    (hn : t.nodes c.callee = r.1) : CallMove t (.recv k) { c with reply := some r.2 }
  | appended {k : ℕ} {c : Call} {term : ℕ} {leaderId : NodeId} {prev prevTerm : ℕ}
    {entries : List LogEntry} {commit : ℕ} {r : RaftNode × RaftRpc}
    (hk : s.calls[k]? = some c)
    (hreq : c.request = .appendEntries term leaderId prev prevTerm entries commit)
    (hr : (s.nodes c.callee).handleAppendEntries term leaderId prev prevTerm entries commit
      = r)
    (hn : t.nodes c.callee = r.1) : CallMove t (.recv k) { c with reply := some r.2 }

namespace Move

variable {s} {e : Event} {t : RaftCluster}

theorem node_update {a : NodeId} {n : RaftNode} (h : s.NodeMove a e n) (b : NodeId) :
    s.NodeMove b e (Function.update s.nodes a n b) := by
  rcases eq_or_ne b a with rfl | hb
  · rwa [Function.update_self]
  · rw [Function.update_of_ne hb]
    exact .stay

theorem node (h : s.Move e t) (b : NodeId) : s.NodeMove b e (t.nodes b) := by
  cases h with
  | heartbeat | drop | refuse => exact .stay
  | elect ha hrole => exact node_update (.elect ha hrole) b
  | recvVote hk hreq hreply hr => exact node_update (hr ▸ .grant hk rfl hreq) b
  | recvAppend hk hreq hreply hidle hr =>
    exact node_update (hr ▸ .append hk rfl hreply hidle hreq) b
  | replyVote hk hreq hreply => exact node_update (.countVote hk rfl hreply) b
  | replyAppend hk hreq hreply => exact node_update (.countAppend hk rfl hreq hreply) b
  | accept ha hrole => exact node_update (.propose ha hrole) b
  | apply ha hlt hr => exact node_update (.apply hlt hr) b

theorem call (h : s.Move e t) {c : Call} (hc : c ∈ t.calls) : s.CallMove t e c := by
  cases h with
  | @heartbeat a ha hrole =>
    rcases List.mem_append.mp hc with hc | hc
    · exact .old hc
    · simp only [RaftNode.sendHeartbeats, List.map_map, List.mem_map] at hc
      obtain ⟨p, hp, rfl⟩ := hc
      exact .append (t := s.send a _) ha hrole hp
  | @elect a ha hrole =>
    rcases List.mem_append.mp hc with hc | hc
    · exact .old hc
    · simp only [RaftNode.startElection, List.map_map, List.mem_map] at hc
      obtain ⟨p, hp, rfl⟩ := hc
      generalize ht : RaftCluster.send _ _ _ = t
      have hself : t.nodes a = (s.nodes a).startElection.1 := by
        rw [← ht]
        exact Function.update_self ..
      have := CallMove.request (s := s) (t := t) (e := .tick a) (p := p) ha (hself ▸ rfl) (hself ▸ hp)
      rwa [hself] at this
  | recvVote hk hreq hreply hr =>
    rcases List.mem_or_eq_of_mem_set hc with hc | rfl
    · exact .old hc
    · exact .granted hk hreq hr (Function.update_self ..)
  | recvAppend hk hreq hreply hidle hr =>
    rcases List.mem_or_eq_of_mem_set hc with hc | rfl
    · exact .old hc
    · exact .appended hk hreq hr (Function.update_self ..)
  | replyVote | replyAppend | drop => exact .old (List.mem_of_mem_eraseIdx hc)
  | @accept a command ha hrole =>
    rcases List.mem_append.mp hc with hc | hc
    · exact .old hc
    · simp only [RaftNode.appendProposal, RaftNode.sendHeartbeats, List.map_map,
        List.mem_map] at hc
      obtain ⟨p, hp, rfl⟩ := hc
      generalize ht : RaftCluster.mk _ _ _ _ _ _ = t
      have hself : t.nodes a = ((s.nodes a).appendProposal command s.opened).1 := by
        rw [← ht]
        exact Function.update_self ..
      have := CallMove.append (s := s) (t := t) (e := .propose a command) (p := p) ha
        (hself ▸ hrole) (hself ▸ hp)
      rwa [hself] at this
  | refuse | apply => exact .old hc

end Move

/-! ## Runs -/

/-- A cluster at its start : at least two nodes with distinct ids, each freshly started
with all the others as its peers. -/
structure Start : Prop where
  nodup : s.members.Nodup
  two_le : 2 ≤ s.members.length
  started : ∀ a ∈ s.members, ∃ peers : List NodeId, peers.Nodup ∧
    (∀ b, b ∈ peers ↔ b ∈ s.members ∧ b ≠ a) ∧ s.nodes a = startRaft a peers
  calls : s.calls = []
  opened : s.opened = 0
  pushed : s.pushed = []
  answered : s.answered = []

/-- `t` is reached from `s`, whatever the order of events. -/
abbrev Reaches (s t : RaftCluster) : Prop := Runs.Run step (fun _ _ => True) s t

/-- The cluster of the given ids at its start. -/
def init (ids : List NodeId) : RaftCluster where
  members := ids
  nodes := fun a => startRaft a (ids.filter (· ≠ a))
  calls := []
  opened := 0
  pushed := []
  answered := []

theorem start_init {ids : List NodeId} (hnd : ids.Nodup) (h2 : 2 ≤ ids.length) :
    (init ids).Start where
  nodup := hnd
  two_le := h2
  started := fun a _ => ⟨ids.filter (· ≠ a), hnd.filter _, by simp [init], rfl⟩
  calls := rfl
  opened := rfl
  pushed := rfl
  answered := rfl

end RaftCluster

end LoonyRedis
