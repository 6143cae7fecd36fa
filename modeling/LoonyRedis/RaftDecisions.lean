import LoonyRedis.RaftSafety

/-!
# Quorums that are left undecided

A candidate that has its votes should lead, and a leader that has its acknowledgements
should commit. The functions that decide are called only where a reply is counted, so each
step that can complete a quorum has to be followed by one of them.

`RaftNode.iterate` is one iteration of the loop of `run_node` on one node : an input from
one of the five branches of its `select!`, whatever the other nodes sent, and then
`apply_committed`. `Decided` says of the top of the loop that no quorum is waiting. Two
steps can break it (`RaftNode.Meets`). Without peers the vote for itself is a majority, and
nobody will reply to a lone candidate. And a proposal extends the log of the leader below
indexes that the peers are already counted for.
-/

set_option linter.unusedSectionVars false

open Std (ExtTreeMap)

namespace LoonyRedis

/-! ## The loop of one node -/

/-- What a branch of the `select!` of `run_node` receives. The replies to `AppendEntries`
come from the tasks that `send_append_entries_to` spawns, one for each peer. -/
inductive LoopInput (peers : List NodeId)
  /-- The sleep is over, with the election deadline passed or not. -/
  | wake (due : Bool)
  | rpc (q : RaftRpc)
  | voteResp (r : RaftRpc)
  | appendResp (peer : { p // p ∈ peers }) (r : RaftRpc)
  | proposal (command : Bytes) (reply : Chan)

namespace RaftNode

variable {peers : List NodeId}

/-- The branch of the `select!`; `none` if it goes on with the next iteration at once. -/
def handleInput (n : RaftNode) : LoopInput peers → Option RaftNode
  | .wake due =>
    if n.role = .leader then some n else if due then some n.startElection.1 else some n
  | .rpc q => (n.handleRpc q).map Prod.fst
  | .voteResp r => some (n.handleVoteResponse r)
  | .appendResp peer r => some (n.handleAppendResponse peer r)
  | .proposal command reply =>
    if n.role = .leader then some (n.appendProposal command reply).1 else some n

/-- `k` iterations of the loop of `apply_committed`. -/
def applyLoop : ℕ → RaftNode → Option RaftNode
  | 0, n => some n
  | k + 1, n => n.applyNext.bind fun r => applyLoop k r.1

/-- Apply the entries from `last_applied` to the commit index. -/
def applyCommitted (n : RaftNode) : Option RaftNode := applyLoop (n.commitIndex - n.lastApplied) n

/-- One iteration of the loop of `run_node`; `none` if it panics. -/
def iterate (n : RaftNode) (i : LoopInput peers) : Option RaftNode :=
  match n.handleInput i with
  | some n' => n'.applyCommitted
  | none => some n

/-- No quorum is waiting : neither the votes of a candidate nor the acknowledgements of an
index that a leader may commit. -/
def Decided (n : RaftNode) : Prop :=
  (n.role = .candidate → n.votesReceived < n.quorum) ∧
  (n.role = .leader → ∀ i, n.commitIndex < i → i ≤ n.lastLogIndex →
    n.logTermAt i = n.currentTerm → 1 + n.matching i < n.quorum)

/-- An election has somebody to ask; a proposal goes to an index that a quorum is not yet
counted for. -/
def Meets (n : RaftNode) : LoopInput peers → Prop
  | .wake due => n.role ≠ .leader → due = true → n.peers ≠ []
  | .proposal .. => n.role = .leader → n.commitIndex < n.log.length →
      1 + n.matching n.log.length < n.quorum
  | _ => True

/-- No quorum is waiting at the top of the loop, now and after each of the inputs. -/
def AlwaysDecided (n : RaftNode) : List (LoopInput peers) → Prop
  | [] => n.Decided
  | i :: is => n.Decided ∧ ∀ n', n.iterate i = some n' → n'.AlwaysDecided is

/-- Each input meets the condition in the state it finds. -/
def AlwaysMeets (n : RaftNode) : List (LoopInput peers) → Prop
  | [] => True
  | i :: is => n.Meets i ∧ ∀ n', n.iterate i = some n' → n'.AlwaysMeets is

/-! ## Applying leaves the decisions -/

/-- Only the state machine and the proposals that wait for it differ. -/
def SameButApplied (n n' : RaftNode) : Prop :=
  ∃ lastApplied applied pending,
    n' = { n with lastApplied := lastApplied, applied := applied, pending := pending }

theorem applyNext_eq_some {n : RaftNode} {r : RaftNode × Option (Chan × Answer)}
    (h : n.applyNext = some r) : n.SameButApplied r.1 ∧ r.1.lastApplied = n.lastApplied + 1 := by
  obtain ⟨entry, -, rfl⟩ := Option.map_eq_some_iff.mp h
  exact ⟨⟨_, _, _, rfl⟩, rfl⟩

theorem applyLoop_eq_some : ∀ {k : ℕ} {n n' : RaftNode}, applyLoop k n = some n' →
    n.SameButApplied n' ∧ n'.lastApplied = n.lastApplied + k
  | 0, n, n', h => by
    obtain rfl := Option.some.inj h
    exact ⟨⟨_, _, _, rfl⟩, rfl⟩
  | k + 1, n, n', h => by
    obtain ⟨r, hr, hrest⟩ := Option.bind_eq_some_iff.mp h
    obtain ⟨⟨la, ap, pe, hsame⟩, hone⟩ := applyNext_eq_some hr
    obtain ⟨⟨la', ap', pe', hsame'⟩, hk⟩ := applyLoop_eq_some hrest
    refine ⟨⟨la', ap', pe', by rw [hsame', hsame]⟩, ?_⟩
    rw [hk, hone]
    omega

theorem applyCommitted_eq_some {n n' : RaftNode} (h : n.applyCommitted = some n') :
    n.SameButApplied n' ∧ n'.idle := by
  obtain ⟨⟨la, ap, pe, hsame⟩, hla⟩ := applyLoop_eq_some h
  refine ⟨⟨la, ap, pe, hsame⟩, ?_⟩
  rw [idle, hla, hsame]
  simp only
  omega

theorem applyCommitted_of_idle {n : RaftNode} (h : n.idle) : n.applyCommitted = some n := by
  have hzero : n.commitIndex - n.lastApplied = 0 := Nat.sub_eq_zero_of_le h
  rw [applyCommitted, hzero]
  rfl

/-! ## Counting -/

/-- Only peers are counted. -/
def CountsPeers (n : RaftNode) : Prop :=
  ∀ (p : NodeId) (m : ℕ), n.matchIndex[p]? = some m → p ∈ n.peers

theorem matching_eq_zero {n : RaftNode} {i : ℕ}
    (h : ∀ (p : NodeId) (m : ℕ), n.matchIndex[p]? = some m → m < i) : n.matching i = 0 := by
  rw [matching, values_matchIndex, List.length_eq_zero_iff, List.filter_eq_nil_iff]
  intro m hm
  obtain ⟨⟨p, m'⟩, hmem, rfl⟩ := List.mem_map.mp hm
  have hlt := h p m' (ExtTreeMap.mem_toList_iff_getElem?_eq_some.mp hmem)
  rw [decide_eq_true_eq]
  simp only
  omega

/-- A new leader has counted nobody. -/
theorem matching_becomeLeader {n : RaftNode} (h : n.CountsPeers) {i : ℕ} (hi : 1 ≤ i) :
    n.becomeLeader.matching i = 0 := by
  refine matching_eq_zero fun p m hm => ?_
  simp only [becomeLeader, getElem?_foldl_insert] at hm
  split at hm
  · obtain rfl := Option.some.inj hm
    exact hi
  · next hp => exact absurd (h p m hm) hp

/-- The search of `try_advance_commit` leaves no index above the one it takes. -/
theorem not_of_find?_reverse_range' {p : ℕ → Bool} {a k i j : ℕ}
    (h : (List.range' a k).reverse.find? p = some i) (hij : i < j)
    (hj : j ∈ List.range' a k) : p j = false := by
  obtain ⟨-, xs, ys, hsplit, hnot⟩ := List.find?_eq_some_iff_append.mp h
  have hmem : j ∈ xs ++ i :: ys := hsplit ▸ List.mem_reverse.mpr hj
  have hsorted : (xs ++ i :: ys).Pairwise (· > ·) := by
    rw [← hsplit, List.pairwise_reverse]
    exact List.pairwise_lt_range'
  rcases List.mem_append.mp hmem with hx | hy
  · simpa using hnot j hx
  · rcases List.mem_cons.mp hy with rfl | hy
    · omega
    · have hlt := (List.pairwise_cons.mp (List.pairwise_append.mp hsorted).2.1).1 j hy
      omega

/-- After `try_advance_commit` no index waits. -/
theorem tryAdvanceCommit_waits_none (n : RaftNode) {i : ℕ}
    (hlo : n.tryAdvanceCommit.commitIndex < i) (hhi : i ≤ n.lastLogIndex)
    (hterm : n.logTermAt i = n.currentTerm) : 1 + n.matching i < n.quorum := by
  have hmem : n.commitIndex < i →
      i ∈ List.range' (n.commitIndex + 1) (n.lastLogIndex - n.commitIndex) := by
    intro hlt
    rw [List.mem_range'_1]
    omega
  unfold tryAdvanceCommit at hlo
  dsimp only at hlo
  split at hlo
  · next j hj =>
    have hjmem := List.mem_of_find?_eq_some hj
    rw [List.mem_reverse, List.mem_range'_1] at hjmem
    simp only at hlo
    have hno := not_of_find?_reverse_range' hj hlo (hmem (by omega))
    simpa [hterm] using hno
  · next hnone =>
    have hno := List.find?_eq_none.mp hnone i (List.mem_reverse.mpr (hmem hlo))
    simpa [hterm] using hno

/-! ## One iteration -/

/-- What holds of a node between the branch of its `select!` and `apply_committed`, if the
input met the condition. -/
structure Ready (peers : List NodeId) (n : RaftNode) : Prop where
  peers_eq : n.peers = peers
  counts : n.CountsPeers
  voted : n.role = .candidate → 1 ≤ n.votesReceived
  decided : n.Decided

/-- What holds at the top of the loop, if all inputs met the condition. -/
structure LoopInv (peers : List NodeId) (n : RaftNode) : Prop extends Ready peers n where
  idle : n.idle

theorem Ready.applyCommitted {n n' : RaftNode} (h : n.Ready peers)
    (happly : n.applyCommitted = some n') : n'.LoopInv peers := by
  obtain ⟨⟨la, ap, pe, rfl⟩, hidle⟩ := applyCommitted_eq_some happly
  exact ⟨⟨h.peers_eq, h.counts, h.voted, h.decided⟩, hidle⟩

/-- A follower has nothing to decide. -/
theorem Ready.of_follower {n n' : RaftNode} (h : n.Ready peers) (hpeers : n'.peers = n.peers)
    (hmatch : n'.matchIndex = n.matchIndex) (hrole : n'.role = .follower) : n'.Ready peers where
  peers_eq := hpeers.trans h.peers_eq
  counts := by
    intro p m hm
    rw [hmatch] at hm
    exact hpeers ▸ h.counts p m hm
  voted := by simp [hrole]
  decided := by simp [Decided, hrole]

theorem matchIndex_stepDown (n : RaftNode) (term : ℕ) :
    (n.stepDown term).matchIndex = n.matchIndex := by
  unfold stepDown
  split <;> rfl

theorem Ready.stepDown {n : RaftNode} (h : n.Ready peers) (term : ℕ) :
    (n.stepDown term).Ready peers :=
  h.of_follower (n.stepDown_peers term) (n.matchIndex_stepDown term) rfl

theorem two_le_quorum {n : RaftNode} (h : n.peers ≠ []) : 2 ≤ n.quorum := by
  have hpos := List.length_pos_iff.mpr h
  rw [quorum]
  omega

theorem Ready.startElection {n : RaftNode} (h : n.Ready peers) (hpeers : n.peers ≠ []) :
    n.startElection.1.Ready peers where
  peers_eq := h.peers_eq
  counts := h.counts
  voted := fun _ => le_rfl
  decided := ⟨fun _ => two_le_quorum hpeers, fun hrole => by cases hrole⟩

/-- A request for a vote leaves what is known of the peers. -/
theorem peerIndexes_handleRequestVote (n : RaftNode) (term : ℕ) (cand : NodeId) (lli llt : ℕ) :
    (n.handleRequestVote term cand lli llt).1.nextIndex = n.nextIndex ∧
      (n.handleRequestVote term cand lli llt).1.matchIndex = n.matchIndex := by
  unfold handleRequestVote RaftNode.stepDown
  dsimp only
  split <;> split <;> exact ⟨rfl, rfl⟩

/-- So does a request with entries. -/
theorem peerIndexes_handleAppendEntries (n : RaftNode) (term : ℕ) (leaderId : NodeId)
    (prev prevTerm : ℕ) (entries : List LogEntry) (commit : ℕ) :
    (n.handleAppendEntries term leaderId prev prevTerm entries commit).1.nextIndex =
        n.nextIndex ∧
      (n.handleAppendEntries term leaderId prev prevTerm entries commit).1.matchIndex =
        n.matchIndex := by
  unfold handleAppendEntries RaftNode.stepDown
  dsimp only
  split
  · exact ⟨rfl, rfl⟩
  · split <;> split <;> (try split) <;> exact ⟨rfl, rfl⟩

/-- A request changes nothing that a decision reads, or makes the node a follower. -/
theorem Ready.handleRpc {n : RaftNode} (h : n.Ready peers) {q : RaftRpc} {r : RaftNode × RaftRpc}
    (hq : n.handleRpc q = some r) : r.1.Ready peers := by
  obtain ⟨term, cand, lli, llt, -, rfl⟩ |
    ⟨term, leaderId, prev, prevTerm, entries, commit, -, rfl⟩ := handleRpc_eq_some hq
  · have hmatch := (n.peerIndexes_handleRequestVote term cand lli llt).2
    obtain ⟨hle, hdata, hrole | ⟨hterm, hrole, hcount⟩, -⟩ := n.handleRequestVote_spec rfl
    · exact h.of_follower hle.peers_eq hmatch hrole
    · refine ⟨hle.peers_eq.trans h.peers_eq, ?_, ?_, ?_⟩
      · intro p m hm
        rw [hmatch] at hm
        exact hle.peers_eq ▸ h.counts p m hm
      · rw [hrole, hcount]
        exact h.voted
      · simp only [Decided, hrole, hcount, hterm, quorum, matching, lastLogIndex, logTermAt,
          hle.peers_eq, hdata.log_eq, hdata.commit_eq, hmatch]
        exact h.decided
  · have hmatch :=
      (n.peerIndexes_handleAppendEntries term leaderId prev prevTerm entries commit).2
    obtain ⟨-, hsame⟩ | ⟨-, hle, hrole, -⟩ := n.handleAppendEntries_vote rfl
    · rw [hsame]
      exact h
    · exact h.of_follower hle.peers_eq hmatch hrole

/-- A new leader has peers, and has counted none of them. -/
theorem Ready.becomeLeader {n : RaftNode} (hpeers : n.peers = peers) (hcounts : n.CountsPeers)
    (hquorum : 2 ≤ n.quorum) : n.becomeLeader.Ready peers := by
  refine ⟨hpeers, ?_, (fun hrole => by cases hrole), (fun hrole => by cases hrole), ?_⟩
  · intro p m hm
    simp only [RaftNode.becomeLeader, getElem?_foldl_insert] at hm
    split at hm
    · next hp => exact hp
    · exact hcounts p m hm
  · intro _ i hlo _ _
    rw [matching_becomeLeader hcounts (Nat.one_le_of_lt hlo)]
    exact hquorum

/-- The vote that completes a quorum makes the candidate a leader. -/
theorem Ready.handleVoteResponse {n : RaftNode} (h : n.Ready peers) (r : RaftRpc) :
    (n.handleVoteResponse r).Ready peers := by
  obtain ⟨term, hdown⟩ | hsame | ⟨rfl, hcand, -⟩ := n.handleVoteResponse_vote r
  · rw [hdown]
    exact h.stepDown term
  · rw [hsame]
    exact h
  · have hvoted := h.voted hcand
    have hdecided := h.decided.1 hcand
    unfold RaftNode.handleVoteResponse
    dsimp only
    rw [if_neg (Nat.lt_irrefl _), if_neg (by simp [hcand]), if_pos rfl]
    split
    · refine Ready.becomeLeader h.peers_eq h.counts (Nat.le_trans ?_ (Nat.succ_le_of_lt hdecided))
      omega
    · next hq =>
      refine ⟨h.peers_eq, h.counts, fun _ => Nat.le_add_left _ _, fun _ => Nat.lt_of_not_le hq, ?_⟩
      intro hrole
      exact absurd (hcand.symm.trans hrole) (by decide)

theorem Ready.handleAppendResponse {n : RaftNode} (h : n.Ready peers) {peer : NodeId}
    (hpeer : peer ∈ peers) (r : RaftRpc) : (n.handleAppendResponse peer r).Ready peers := by
  cases r with
  | appendEntriesResp term success m =>
    unfold RaftNode.handleAppendResponse
    dsimp only
    split
    · exact h.stepDown term
    · split
      · exact h
      · next hrole =>
        rw [not_not] at hrole
        split
        · generalize hn₁ : ({ n with
            nextIndex := n.nextIndex.insert peer (m + 1)
            matchIndex := n.matchIndex.insert peer m } : RaftNode) = n₁
          have hcounts : n₁.CountsPeers := by
            intro p k hk
            subst hn₁
            rw [ExtTreeMap.getElem?_insert] at hk
            split at hk
            · next heq =>
              obtain rfl : peer = p := by simpa using heq
              exact h.peers_eq ▸ hpeer
            · exact h.counts p k hk
          have hpeers : n₁.peers = peers := hn₁ ▸ h.peers_eq
          have hrole₁ : n₁.role = .leader := hn₁ ▸ hrole
          have hvote := n₁.sameVote_tryAdvanceCommit
          refine ⟨hvote.peers_eq.trans hpeers, ?_, ?_, ?_, ?_⟩
          · intro p k hk
            rw [n₁.matchIndex_tryAdvanceCommit] at hk
            exact hvote.peers_eq ▸ hcounts p k hk
          · simp [hvote.role_eq, hrole₁]
          · simp [hvote.role_eq, hrole₁]
          · intro _ i hlo hhi hterm
            simp only [lastLogIndex, logTermAt, n₁.log_tryAdvanceCommit, hvote.term_eq] at hhi hterm
            simp only [matching, quorum, n₁.matchIndex_tryAdvanceCommit, hvote.peers_eq]
            exact n₁.tryAdvanceCommit_waits_none hlo hhi hterm
        · exact ⟨h.peers_eq, h.counts, h.voted, h.decided⟩
  | requestVote | requestVoteResp | appendEntries => exact h

/-- A proposal adds one index to those that may wait. -/
theorem Ready.appendProposal {n : RaftNode} (h : n.Ready peers) (hrole : n.role = .leader)
    {command : Bytes} {reply : Chan}
    (hnew : n.commitIndex < n.log.length → 1 + n.matching n.log.length < n.quorum) :
    (n.appendProposal command reply).1.Ready peers := by
  refine ⟨h.peers_eq, h.counts, h.voted, h.decided.1, fun _ i hlo hhi hterm => ?_⟩
  simp only [RaftNode.appendProposal, lastLogIndex, List.length_append, List.length_singleton,
    Nat.add_sub_cancel] at hlo hhi
  obtain hlt | rfl := hhi.lt_or_eq
  · refine h.decided.2 hrole i hlo (by rw [lastLogIndex]; omega) ?_
    simp only [RaftNode.appendProposal, logTermAt, List.getElem?_append_left hlt] at hterm
    exact hterm
  · exact hnew hlo

/-- An input that meets the condition leaves no quorum waiting. -/
theorem Ready.handleInput {n n' : RaftNode} (h : n.Ready peers) {i : LoopInput peers}
    (hmeets : n.Meets i) (hi : n.handleInput i = some n') : n'.Ready peers := by
  cases i with
  | wake due =>
    simp only [RaftNode.handleInput] at hi
    split at hi
    · obtain rfl := Option.some.inj hi
      exact h
    · next hrole =>
      split at hi <;> obtain rfl := Option.some.inj hi
      · next hdue => exact h.startElection (hmeets hrole hdue)
      · exact h
  | rpc q =>
    obtain ⟨r, hr, rfl⟩ := Option.map_eq_some_iff.mp hi
    exact h.handleRpc hr
  | voteResp r =>
    obtain rfl := Option.some.inj hi
    exact h.handleVoteResponse r
  | appendResp peer r =>
    obtain rfl := Option.some.inj hi
    exact h.handleAppendResponse peer.2 r
  | proposal command reply =>
    simp only [RaftNode.handleInput] at hi
    split at hi <;> obtain rfl := Option.some.inj hi
    · next hrole => exact h.appendProposal hrole (hmeets hrole)
    · exact h

theorem LoopInv.iterate {n n' : RaftNode} (h : n.LoopInv peers) {i : LoopInput peers}
    (hmeets : n.Meets i) (hi : n.iterate i = some n') : n'.LoopInv peers := by
  unfold RaftNode.iterate at hi
  split at hi
  · next n₁ hn₁ => exact (h.toReady.handleInput hmeets hn₁).applyCommitted hi
  · obtain rfl := Option.some.inj hi
    exact h

/-- An input that does not meet it leaves one. -/
theorem LoopInv.exists_undecided {n : RaftNode} (h : n.LoopInv peers) {i : LoopInput peers}
    (hnot : ¬ n.Meets i) : ∃ n', n.iterate i = some n' ∧ ¬ n'.Decided := by
  cases i with
  | wake due =>
    simp only [Meets, Classical.not_imp, not_not] at hnot
    obtain ⟨hrole, rfl, hpeers⟩ := hnot
    refine ⟨n.startElection.1, ?_, fun hdecided => ?_⟩
    · simp only [RaftNode.iterate, RaftNode.handleInput, hrole, if_false, if_true]
      exact applyCommitted_of_idle h.idle
    · have hvotes := hdecided.1 rfl
      have hquorum : n.startElection.1.quorum = n.quorum := rfl
      have hone : n.startElection.1.votesReceived = 1 := rfl
      rw [hquorum, quorum, hpeers, hone] at hvotes
      exact absurd hvotes (by decide)
  | proposal command reply =>
    simp only [Meets, Classical.not_imp] at hnot
    obtain ⟨hrole, hlo, hcount⟩ := hnot
    refine ⟨(n.appendProposal command reply).1, ?_, fun hdecided => hcount ?_⟩
    · simp only [RaftNode.iterate, RaftNode.handleInput, hrole, if_true]
      exact applyCommitted_of_idle h.idle
    · refine hdecided.2 hrole n.log.length hlo ?_ ?_
      · simp [RaftNode.appendProposal, lastLogIndex]
      · simp [RaftNode.appendProposal, logTermAt]
  | rpc | voteResp | appendResp => exact absurd trivial hnot

/-! ## Runs -/

theorem LoopInv.alwaysDecided_iff : ∀ {n : RaftNode} (_ : n.LoopInv peers)
    (inputs : List (LoopInput peers)), n.AlwaysDecided inputs ↔ n.AlwaysMeets inputs
  | n, h, [] => iff_of_true h.decided trivial
  | n, h, i :: is => by
    constructor
    · rintro ⟨-, hrest⟩
      have hmeets : n.Meets i := by
        by_contra hnot
        obtain ⟨n', hn', hundecided⟩ := h.exists_undecided hnot
        refine hundecided ?_
        have hthen := hrest n' hn'
        cases is with
        | nil => exact hthen
        | cons => exact hthen.1
      exact ⟨hmeets, fun n' hn' =>
        ((h.iterate hmeets hn').alwaysDecided_iff is).mp (hrest n' hn')⟩
    · rintro ⟨hmeets, hrest⟩
      exact ⟨h.decided, fun n' hn' =>
        ((h.iterate hmeets hn').alwaysDecided_iff is).mpr (hrest n' hn')⟩

theorem loopInv_startRaft (id : NodeId) (peers : List NodeId) :
    (startRaft id peers).LoopInv peers where
  peers_eq := rfl
  counts := by
    intro p m hm
    simp [startRaft] at hm
  voted := fun hrole => by cases hrole
  decided := ⟨(fun hrole => by cases hrole), (fun hrole => by cases hrole)⟩
  idle := le_rfl

end RaftNode

/-- For any number of peers and whatever a started node receives : no quorum is ever
waiting at the top of its loop if and only if it starts no election without peers, and
takes no proposal at an index that a quorum is already counted for. -/
theorem RaftNode.decided_iff_meets (id : NodeId) (peers : List NodeId)
    (inputs : List (LoopInput peers)) :
    (startRaft id peers).AlwaysDecided inputs ↔ (startRaft id peers).AlwaysMeets inputs :=
  (RaftNode.loopInv_startRaft id peers).alwaysDecided_iff inputs

/-- A node without peers is a candidate with one vote of one for ever. -/
theorem RaftNode.lone_candidate_waits :
    ¬ (startRaft "a" []).AlwaysDecided [(LoopInput.wake true : LoopInput [])] := by
  intro h
  have hvotes := (h.2 (startRaft "a" []).startElection.1 rfl).1 rfl
  exact absurd hvotes (by decide)

end LoonyRedis
