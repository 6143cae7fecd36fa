import LoonyRedis.Lib.Checked
import LoonyRedis.RaftDecisions

/-!
# Where the Raft log is indexed

The handlers of a node index its log with numbers that come from messages, cut it, and apply
it up to an index that a message set. Here each index, slice and cut is checked, and so is
each sum with a number from a message (`u64`). `runChecked` is the loop of one node from its
start, on any inputs; `none` is a panic. Without one it does what `iterate` does
(`iterateChecked_fst`).

The comparisons of each handler guard what it indexes itself. The loop of `apply_committed`
has none. It relies on what holds after each handler (`Indexed`) : the commit index is in the
log, or everything up to it was applied before. The first is not enough. A request may cut the
log below the commit index, and the next one then sets it to a smaller value
(`handleAppendEntries` does not compare with the old one again), but what was cut was applied,
since `apply_committed` ran in between, and is not read a second time.
-/

open Std (ExtTreeMap)

namespace LoonyRedis

open Checked

namespace RaftNode

variable {peers : List NodeId} (n : RaftNode)

/-! ## The handlers with their accesses checked -/

/-- The slice of the log from the next index on. -/
def sendAppendEntriesToChecked (peer : NodeId) : Option RaftRpc := do
  let next := n.nextIndex[peer]?.getD 1
  let prevIndex := next - 1
  let entries ← if next ≤ n.log.length - 1 then sliceFrom n.log next else some []
  return .appendEntries n.currentTerm n.id prevIndex (n.logTermAt prevIndex) entries n.commitIndex

/-- `RaftNode.sendHeartbeats`, with the log indexed. -/
def sendHeartbeatsChecked : Option (List (NodeId × RaftRpc)) :=
  n.peers.mapM fun peer => (n.sendAppendEntriesToChecked peer).map (Prod.mk peer)

/-- The loop of `try_advance_commit`. The source reads a term 0 past the end of the log; here
that is a panic. -/
def advanceLoop : List ℕ → Option (Option ℕ)
  | [] => some none
  | i :: is => do
    let e ← n.log[i]?
    if e.term = n.currentTerm ∧ 1 + n.matching i ≥ n.quorum then some (some i)
    else advanceLoop is

/-- `RaftNode.tryAdvanceCommit`, with the log indexed. -/
def tryAdvanceCommitChecked : Option RaftNode := do
  let last := n.lastLogIndex
  match ← n.advanceLoop (List.range' (n.commitIndex + 1) (last - n.commitIndex)).reverse with
  | some i => return { n with commitIndex := i }
  | none => return n

/-- `RaftNode.handleAppendResponse`, with the next index in 64 bits. -/
def handleAppendResponseChecked (peer : NodeId) : RaftRpc → Option RaftNode
  | .appendEntriesResp term success matchIdx =>
    if term > n.currentTerm then some (n.stepDown term)
    else if n.role ≠ .leader then some n
    else if success then do
      let next ← unsigned 64 (matchIdx + 1)
      tryAdvanceCommitChecked { n with
        nextIndex := n.nextIndex.insert peer next
        matchIndex := n.matchIndex.insert peer matchIdx }
    else
      let next := n.nextIndex[peer]?.getD 1
      some { n with nextIndex := n.nextIndex.insert peer (if next > 1 then next - 1 else next) }
  | _ => some n

/-- The consistency check, which indexes the log behind the comparison. -/
def prevLogOkChecked (prevLogIndex prevLogTerm : ℕ) : Option Bool :=
  if prevLogIndex > 0 then
    if prevLogIndex ≥ n.log.length then some false
    else do
      let e ← n.log[prevLogIndex]?
      return e.term = prevLogTerm
  else some true

/-- The new entries, merged into the log. -/
def mergeChecked (prevLogIndex : ℕ) (entries : List LogEntry) : Option (List LogEntry) :=
  if entries = [] then some n.log
  else do
    let insertAt ← unsigned 64 (prevLogIndex + 1)
    let log ← if insertAt < n.log.length then
        Splice.truncateChecked LogEntry.term n.log insertAt entries
      else some n.log
    return Splice.pushMissing log insertAt entries

/-- `RaftNode.handleAppendEntries`, with the log indexed and cut. -/
def handleAppendEntriesChecked (term : ℕ) (leaderId : NodeId) (prevLogIndex prevLogTerm : ℕ)
    (entries : List LogEntry) (leaderCommit : ℕ) : Option (RaftNode × RaftRpc) :=
  if term < n.currentTerm then some (n, .appendEntriesResp n.currentTerm false 0)
  else do
    let n := (n.stepDown term).setLeader leaderId
    if ¬ (← n.prevLogOkChecked prevLogIndex prevLogTerm) then
      return (n, .appendEntriesResp n.currentTerm false 0)
    else
      let n := { n with log := ← n.mergeChecked prevLogIndex entries }
      let n := if leaderCommit > n.commitIndex then
        { n with commitIndex := min leaderCommit n.lastLogIndex } else n
      return (n, .appendEntriesResp n.currentTerm true n.lastLogIndex)

/-- `RaftNode.appendProposal`, with the log indexed. -/
def appendProposalChecked (command : Bytes) (reply : Chan) :
    Option (RaftNode × List (NodeId × RaftRpc)) := do
  let index := n.log.length
  let n := { n with
    log := n.log ++ [⟨n.currentTerm, command⟩]
    pending := n.pending.insert index reply }
  return (n, ← n.sendHeartbeatsChecked)

/-- The new term of an election is a `u64`. -/
def startElectionU64 : RaftNode :=
  { n.startElection.1 with currentTerm := n.startElection.1.currentTerm % 2 ^ 64 }

/-- The loop of `apply_committed`, with the indexes it reads. -/
def applyLoopIndexes : ℕ → RaftNode → Option (RaftNode × List ℕ)
  | 0, n => some (n, [])
  | k + 1, n => do
    let r ← n.applyNext
    let rest ← applyLoopIndexes k r.1
    return (rest.1, r.1.lastApplied :: rest.2)

/-- The indexes that are applied, each of them read from the log. -/
def applyCommittedIndexes : Option (RaftNode × List ℕ) :=
  applyLoopIndexes (n.commitIndex - n.lastApplied) n

/-- One iteration of the loop of `run_node`, with the indexes that it applies. A leader that
wakes up sends its heartbeats, if the last ones are long enough ago. -/
def iterateChecked : LoopInput peers → Option (RaftNode × List ℕ)
  | .wake due =>
    if n.role = .leader then do
      let _ ← if due then n.sendHeartbeatsChecked else some []
      n.applyCommittedIndexes
    else if due then n.startElectionU64.applyCommittedIndexes else n.applyCommittedIndexes
  | .rpc (.requestVote term candidateId lastLogIndex lastLogTerm) =>
    (n.handleRequestVote term candidateId lastLogIndex lastLogTerm).1.applyCommittedIndexes
  | .rpc (.appendEntries term leaderId prevLogIndex prevLogTerm entries leaderCommit) => do
    let r ← n.handleAppendEntriesChecked term leaderId prevLogIndex prevLogTerm entries
      leaderCommit
    r.1.applyCommittedIndexes
  | .rpc _ => some (n, [])
  | .voteResp r => (n.handleVoteResponse r).applyCommittedIndexes
  | .appendResp peer r => do
    (← n.handleAppendResponseChecked peer r).applyCommittedIndexes
  | .proposal command reply =>
    if n.role = .leader then do
      (← n.appendProposalChecked command reply).1.applyCommittedIndexes
    else n.applyCommittedIndexes

/-- A run of the loop, with all indexes that it applies, in order. -/
def runChecked : RaftNode → List (LoopInput peers) → Option (RaftNode × List ℕ)
  | n, [] => some (n, [])
  | n, i :: is => do
    let r ← n.iterateChecked i
    let rest ← runChecked r.1 is
    return (rest.1, r.2 ++ rest.2)

end RaftNode

/-! ## What may arrive -/

/-- The numbers of an RPC are below `2 ^ 63`. -/
def RaftRpc.Below63 : RaftRpc → Prop
  | .requestVote term _ lastLogIndex lastLogTerm =>
    term < 2 ^ 63 ∧ lastLogIndex < 2 ^ 63 ∧ lastLogTerm < 2 ^ 63
  | .requestVoteResp term _ => term < 2 ^ 63
  | .appendEntries term _ prevLogIndex prevLogTerm entries leaderCommit =>
    term < 2 ^ 63 ∧ prevLogIndex < 2 ^ 63 ∧ prevLogTerm < 2 ^ 63 ∧
      (∀ e ∈ entries, e.term < 2 ^ 63) ∧ leaderCommit < 2 ^ 63
  | .appendEntriesResp term _ matchIndex => term < 2 ^ 63 ∧ matchIndex < 2 ^ 63

/-- The numbers of a message are below `2 ^ 63`. -/
def LoopInput.Below63 {peers : List NodeId} : LoopInput peers → Prop
  | .rpc q => q.Below63
  | .voteResp r => r.Below63
  | .appendResp _ r => r.Below63
  | .wake _ | .proposal _ _ => True

namespace RaftNode

variable {peers : List NodeId} {n n' : RaftNode}

/-! ## The guards of the handlers -/

@[simp] theorem sendAppendEntriesToChecked_eq (n : RaftNode) (peer : NodeId) :
    n.sendAppendEntriesToChecked peer = some (n.sendAppendEntriesTo peer) := by
  rw [sendAppendEntriesToChecked, sendAppendEntriesTo]
  dsimp only
  split
  · rw [sliceFrom_eq (by omega)]
    rfl
  · rfl

@[simp] theorem sendHeartbeatsChecked_eq (n : RaftNode) :
    n.sendHeartbeatsChecked = some n.sendHeartbeats := by
  refine mapM_eq fun peer _ => ?_
  rw [sendAppendEntriesToChecked_eq]
  rfl

@[simp] theorem appendProposalChecked_eq (n : RaftNode) (command : Bytes) (reply : Chan) :
    n.appendProposalChecked command reply = some (n.appendProposal command reply) := by
  rw [appendProposalChecked]
  simp only [sendHeartbeatsChecked_eq]
  rfl

/-- A number of a message may be increased. -/
theorem unsigned_succ {x : ℕ} (h : x < 2 ^ 63) : unsigned 64 ((x : ℤ) + 1) = some (x + 1) := by
  rw [unsigned_eq (by omega) (by omega)]
  rfl

/-- The loop reads indexes that the log has. -/
theorem advanceLoop_eq (n : RaftNode) : ∀ {is : List ℕ}, (∀ i ∈ is, i < n.log.length) →
    n.advanceLoop is = some (is.find? fun i =>
      n.logTermAt i = n.currentTerm ∧ 1 + n.matching i ≥ n.quorum)
  | [], _ => rfl
  | i :: is, h => by
    have hi : i < n.log.length := h i List.mem_cons_self
    have ih := advanceLoop_eq n fun j hj => h j (List.mem_cons_of_mem i hj)
    have hterm : n.logTermAt i = n.log[i].term := by
      rw [logTermAt, List.getElem?_eq_getElem hi]
      rfl
    rw [advanceLoop, List.getElem?_eq_getElem hi, List.find?_cons, hterm]
    simp only [Option.bind_eq_bind, Option.bind_some, ih]
    split
    · next hcond => rw [decide_eq_true hcond]
    · next hcond => rw [decide_eq_false hcond]

/-- `try_advance_commit` stays within a log that has its sentinel. -/
theorem tryAdvanceCommitChecked_eq (h : n.log ≠ []) :
    n.tryAdvanceCommitChecked = some n.tryAdvanceCommit := by
  have hpos := List.length_pos_iff.mpr h
  have hrange : ∀ i ∈ (List.range' (n.commitIndex + 1)
      (n.lastLogIndex - n.commitIndex)).reverse, i < n.log.length := by
    intro i hi
    rw [List.mem_reverse, List.mem_range'_1, lastLogIndex] at hi
    omega
  have hloop := n.advanceLoop_eq hrange
  rw [tryAdvanceCommitChecked, tryAdvanceCommit, hloop]
  generalize List.find? _ _ = found
  cases found with
  | none => rfl
  | some i => rfl

/-- An append response is handled without a panic or a wrapped index. -/
theorem handleAppendResponseChecked_eq (h : n.log ≠ []) (peer : NodeId) {r : RaftRpc}
    (hr : r.Below63) :
    n.handleAppendResponseChecked peer r = some (n.handleAppendResponse peer r) := by
  cases r with
  | appendEntriesResp term success matchIdx =>
    have hlt : matchIdx < 2 ^ 63 := hr.2
    simp only [handleAppendResponseChecked, handleAppendResponse, unsigned_succ hlt,
      Option.bind_eq_bind, Option.bind_some]
    split
    · rfl
    · split
      · rfl
      · split
        · exact tryAdvanceCommitChecked_eq h
        · rfl
  | requestVote => rfl
  | requestVoteResp => rfl
  | appendEntries => rfl

/-- The test of the previous entry stays within the log for any index. -/
theorem prevLogOkChecked_eq (n : RaftNode) (prevLogIndex prevLogTerm : ℕ) :
    n.prevLogOkChecked prevLogIndex prevLogTerm =
      some (n.prevLogOk prevLogIndex prevLogTerm) := by
  rw [prevLogOkChecked, prevLogOk]
  split
  · next hpos =>
    split
    · next hge => simp [List.getElem?_eq_none hge, hpos.ne']
    · next hlt =>
      rw [List.getElem?_eq_getElem (Nat.not_le.mp hlt)]
      simp [hpos.ne']
  · next hzero => simp [Nat.eq_zero_of_not_pos hzero]

/-- The merge of the sent entries stays within the log. -/
theorem mergeChecked_eq (n : RaftNode) {prevLogIndex : ℕ} (hprev : prevLogIndex < 2 ^ 63)
    (entries : List LogEntry) : n.mergeChecked prevLogIndex entries =
      some (Splice.splice LogEntry.term n.log (prevLogIndex + 1) entries) := by
  rw [mergeChecked]
  split
  · next hnil =>
    rw [hnil]
    rfl
  · simp only [unsigned_succ hprev, Option.bind_eq_bind, Option.bind_some, Splice.splice]
    split
    · rw [Splice.truncateChecked_eq]
      rfl
    · next hge =>
      -- past the end there is nothing to cut
      rw [Splice.truncateConflicts_of_length_le _ _ _ _ (Nat.not_lt.mp hge)]
      rfl

/-- An append request is handled without a panic or a wrapped index. -/
theorem handleAppendEntriesChecked_eq (n : RaftNode) (term : ℕ) (leaderId : NodeId)
    {prevLogIndex : ℕ} (hprev : prevLogIndex < 2 ^ 63) (prevLogTerm : ℕ)
    (entries : List LogEntry) (leaderCommit : ℕ) :
    n.handleAppendEntriesChecked term leaderId prevLogIndex prevLogTerm entries leaderCommit =
      some (n.handleAppendEntries term leaderId prevLogIndex prevLogTerm entries
        leaderCommit) := by
  rw [handleAppendEntriesChecked, handleAppendEntries]
  split
  · rfl
  · simp only [prevLogOkChecked_eq, mergeChecked_eq _ hprev, Option.bind_eq_bind,
      Option.bind_some]
    split <;> rfl

/-! ## The loop is that of the unchecked node -/

/-- The indexes are kept beside the entries that are applied, and change nothing. -/
theorem applyLoopIndexes_fst : ∀ (k : ℕ) (n : RaftNode),
    (applyLoopIndexes k n).map Prod.fst = applyLoop k n
  | 0, _ => rfl
  | k + 1, n => by
    rw [applyLoopIndexes, applyLoop]
    cases n.applyNext with
    | none => rfl
    | some r =>
      rw [Option.bind_some, ← applyLoopIndexes_fst k r.1]
      cases hrest : applyLoopIndexes k r.1 <;> simp [hrest]

/-- What is applied is what `apply_committed` applies. -/
theorem applyCommittedIndexes_fst (n : RaftNode) :
    n.applyCommittedIndexes.map Prod.fst = n.applyCommitted := applyLoopIndexes_fst _ n

/-- An election that does not overflow the term. -/
theorem startElectionU64_eq (h : n.currentTerm + 1 < 2 ^ 64) :
    n.startElectionU64 = n.startElection.1 := by
  have hmod : (n.currentTerm + 1) % 2 ^ 64 = n.currentTerm + 1 := Nat.mod_eq_of_lt h
  simp only [startElectionU64, startElection, hmod]

/-- The checks change nothing, as long as the log has its sentinel and the term its room. -/
theorem iterateChecked_fst (hlog : n.log ≠ []) (hterm : n.currentTerm + 1 < 2 ^ 64)
    {i : LoopInput peers} (hi : i.Below63) : (n.iterateChecked i).map Prod.fst = n.iterate i := by
  cases i with
  | wake due =>
    rw [RaftNode.iterateChecked, startElectionU64_eq hterm, iterate, handleInput]
    split
    · cases due <;> simp [applyCommittedIndexes_fst]
    · split <;> exact applyCommittedIndexes_fst _
  | rpc q =>
    cases q with
    | requestVote => exact applyCommittedIndexes_fst _
    | appendEntries term leaderId prev prevTerm entries commit =>
      have hprev : prev < 2 ^ 63 := hi.2.1
      rw [RaftNode.iterateChecked, n.handleAppendEntriesChecked_eq term leaderId hprev]
      exact applyCommittedIndexes_fst _
    | requestVoteResp | appendEntriesResp => rfl
  | voteResp r => exact applyCommittedIndexes_fst _
  | appendResp peer r =>
    rw [RaftNode.iterateChecked, handleAppendResponseChecked_eq hlog peer.1 hi]
    exact applyCommittedIndexes_fst _
  | proposal command reply =>
    rw [RaftNode.iterateChecked, iterate, handleInput]
    split
    · simp [applyCommittedIndexes_fst]
    · exact applyCommittedIndexes_fst _

/-! ## What holds after each handler -/

/-- The log begins with the sentinel, no next index is zero, and the log has what is left
to apply. -/
structure Indexed (n : RaftNode) : Prop where
  sentinel : n.log[0]? = some LogEntry.sentinel
  next : n.NextOk
  bounded : n.commitIndex ≤ n.lastApplied ∨ n.commitIndex < n.log.length

/-- What a handler leaves for `apply_committed`. -/
structure Handled (n n' : RaftNode) : Prop extends Indexed n' where
  applied_eq : n'.lastApplied = n.lastApplied

/-- The log has at least its sentinel. -/
theorem Indexed.log_ne_nil (h : n.Indexed) : n.log ≠ [] := by
  intro hnil
  have hs := h.sentinel
  rw [hnil] at hs
  cases hs

/-- A node starts with its indexes in order. -/
theorem indexed_startRaft (id : NodeId) (peers : List NodeId) : (startRaft id peers).Indexed :=
  ⟨rfl, fun _ _ h => by simp [startRaft] at h, Or.inl le_rfl⟩

theorem Indexed.handled (h : n.Indexed) : n.Handled n := ⟨h, rfl⟩

/-- A step that leaves the data, and the next indexes. -/
theorem Indexed.of_sameData (h : n.Indexed) (hdata : n.SameData n')
    (hnext : n'.nextIndex = n.nextIndex) : n.Handled n' := by
  refine ⟨⟨hdata.log_eq ▸ h.sentinel, ?_, ?_⟩, hdata.lastApplied_eq⟩
  · intro p k hk
    exact h.next p k (hnext ▸ hk)
  · rw [hdata.commit_eq, hdata.lastApplied_eq, hdata.log_eq]
    exact h.bounded

/-- An election keeps the indexes in order. -/
theorem Indexed.startElectionU64 (h : n.Indexed) : n.Handled n.startElectionU64 :=
  h.of_sameData ⟨rfl, rfl, rfl, rfl, rfl⟩ rfl

/-- A vote request keeps the indexes in order. -/
theorem Indexed.handleRequestVote (h : n.Indexed) (term : ℕ) (cand : NodeId) (lli llt : ℕ) :
    n.Handled (n.handleRequestVote term cand lli llt).1 :=
  h.of_sameData (n.handleRequestVote_spec rfl).2.1
    (n.peerIndexes_handleRequestVote term cand lli llt).1

/-- What is merged comes after the sentinel. The commit index that is set is in the log, and
the one that is kept was applied, wherever the log now ends. -/
theorem Indexed.handleAppendEntries (h : n.Indexed) (hidle : n.idle) (term : ℕ)
    (leaderId : NodeId) (prev prevTerm : ℕ) (entries : List LogEntry) (commit : ℕ) :
    n.Handled (n.handleAppendEntries term leaderId prev prevTerm entries commit).1 := by
  have hnext := (n.peerIndexes_handleAppendEntries term leaderId prev prevTerm entries commit).1
  obtain ⟨hsame, -⟩ | hmerge :=
    n.handleAppendEntries_data (rfl : n.handleAppendEntries term leaderId prev prevTerm entries
      commit = _)
  · exact h.of_sameData hsame hnext
  · have hpos := List.length_pos_iff.mpr h.log_ne_nil
    have hsentinel : (Splice.splice LogEntry.term n.log (prev + 1) entries)[0]? =
        some LogEntry.sentinel := by
      rw [← h.sentinel]
      refine Splice.getElem?_splice LogEntry.term hpos entries _ ?_
      intro k e old _ hk
      omega
    rw [← hmerge.log_eq] at hsentinel
    have hpos' := (List.getElem?_eq_some_iff.mp hsentinel).1
    refine ⟨⟨hsentinel, fun p k hk => h.next p k (hnext ▸ hk), ?_⟩, hmerge.lastApplied_eq⟩
    rw [hmerge.commit_eq, hmerge.lastApplied_eq]
    split
    · refine Or.inr (lt_of_le_of_lt (min_le_right _ _) ?_)
      rw [lastLogIndex]
      omega
    · exact Or.inl hidle

/-- A vote response keeps the indexes in order. -/
theorem Indexed.handleVoteResponse (h : n.Indexed) (r : RaftRpc) :
    n.Handled (n.handleVoteResponse r) := by
  have hlog := n.log_handleVoteResponse r
  have hkeep : (n.handleVoteResponse r).commitIndex = n.commitIndex ∧
      (n.handleVoteResponse r).lastApplied = n.lastApplied := by
    obtain ⟨term, hv⟩ | hv | ⟨-, -, hv | ⟨-, hv⟩⟩ := n.handleVoteResponse_vote r <;> rw [hv]
    · exact ⟨n.stepDown_commitIndex term, n.stepDown_lastApplied term⟩
    · exact ⟨rfl, rfl⟩
    · exact ⟨rfl, rfl⟩
    · exact ⟨rfl, rfl⟩
  refine ⟨⟨hlog ▸ h.sentinel, h.next.handleVoteResponse r, ?_⟩, hkeep.2⟩
  rw [hkeep.1, hkeep.2, hlog]
  exact h.bounded

/-- An append response keeps the indexes in order. -/
theorem Indexed.handleAppendResponse (h : n.Indexed) (peer : NodeId) (r : RaftRpc) :
    n.Handled (n.handleAppendResponse peer r) := by
  have hlog := n.log_handleAppendResponse peer r
  have hlast := (n.sameApplied_handleAppendResponse peer r).1
  refine ⟨⟨hlog ▸ h.sentinel, h.next.handleAppendResponse peer r, ?_⟩, hlast⟩
  obtain hcommit | hadvanced := n.handleAppendResponse_commit peer r
  · rw [hcommit, hlast, hlog]
    exact h.bounded
  · exact Or.inr hadvanced.lt_length

/-- A proposal keeps the indexes in order. -/
theorem Indexed.appendProposal (h : n.Indexed) (command : Bytes) (reply : Chan) :
    n.Handled (n.appendProposal command reply).1 := by
  have hpos := List.length_pos_iff.mpr h.log_ne_nil
  have hget (e : LogEntry) : (n.log ++ [e])[0]? = n.log[0]? := List.getElem?_append_left hpos
  have hlen (e : LogEntry) : n.log.length < (n.log ++ [e]).length := by simp
  exact ⟨⟨(hget _).trans h.sentinel, h.next, h.bounded.imp_right fun hlt => hlt.trans (hlen _)⟩,
    rfl⟩

/-! ## The loop of `apply_committed` -/

/-- As long as the log reaches as far, the loop applies one index after the other. -/
theorem applyLoopIndexes_eq : ∀ {k : ℕ} {n : RaftNode}, n.lastApplied + k < n.log.length →
    ∃ n', applyLoopIndexes k n = some (n', List.range' (n.lastApplied + 1) k) ∧
      n.SameButApplied n' ∧ n'.lastApplied = n.lastApplied + k
  | 0, n, _ => ⟨n, rfl, ⟨_, _, _, rfl⟩, rfl⟩
  | k + 1, n, hlen => by
    have hnext : n.lastApplied + 1 < n.log.length := by omega
    obtain ⟨r, hr⟩ : ∃ r, n.applyNext = some r := by
      rw [applyNext, List.getElem?_eq_getElem hnext]
      exact ⟨_, rfl⟩
    obtain ⟨⟨la, ap, pe, hsame⟩, hone⟩ := applyNext_eq_some hr
    have hlog : r.1.log = n.log := by rw [hsame]
    obtain ⟨n', hloop, ⟨la', ap', pe', hsame'⟩, hlast⟩ :=
      @applyLoopIndexes_eq k r.1 (by rw [hlog, hone]; omega)
    refine ⟨n', ?_, ⟨la', ap', pe', by rw [hsame', hsame]⟩, by rw [hlast, hone]; omega⟩
    rw [applyLoopIndexes, hr]
    simp only [Option.bind_eq_bind, Option.bind_some, hloop, hone]
    rfl

/-- The computation does not panic, and applies the indexes from the last applied one of `n`
up to that of the node it returns, which has nothing left to apply. -/
def Advances (n : RaftNode) (x : Option (RaftNode × List ℕ)) : Prop :=
  ∃ n', x = some (n', List.range' (n.lastApplied + 1) (n'.lastApplied - n.lastApplied)) ∧
    n'.Indexed ∧ n'.idle ∧ n.lastApplied ≤ n'.lastApplied

/-- The apply loop advances over the next entries in order. -/
theorem Indexed.applyCommittedIndexes (h : n.Indexed) : n.Advances n.applyCommittedIndexes := by
  have hlen : n.lastApplied + (n.commitIndex - n.lastApplied) < n.log.length ∨
      n.commitIndex - n.lastApplied = 0 := by
    have hpos := List.length_pos_iff.mpr h.log_ne_nil
    have hbounded := h.bounded
    omega
  rcases hlen with hlen | hzero
  · obtain ⟨n', hloop, ⟨la, ap, pe, hsame⟩, hlast⟩ := applyLoopIndexes_eq hlen
    have hidle : n'.idle := by
      rw [idle, hlast, hsame]
      simp only
      omega
    refine ⟨n', ?_, ⟨hsame ▸ h.sentinel, hsame ▸ h.next, Or.inl hidle⟩, hidle, by omega⟩
    rw [RaftNode.applyCommittedIndexes, hloop, hlast, Nat.add_sub_cancel_left]
  · refine ⟨n, ?_, h, Nat.sub_eq_zero_iff_le.mp hzero, le_rfl⟩
    rw [RaftNode.applyCommittedIndexes, hzero, Nat.sub_self]
    rfl

/-- A handled message and the apply loop after it advance over the next entries. -/
theorem Handled.advances (h : n.Handled n') : n.Advances n'.applyCommittedIndexes := by
  rw [Advances, ← h.applied_eq]
  exact h.toIndexed.applyCommittedIndexes

/-! ## Iterations and runs -/

/-- One iteration, whatever it received. -/
theorem Indexed.iterateChecked (h : n.Indexed) (hidle : n.idle) {i : LoopInput peers}
    (hi : i.Below63) : n.Advances (n.iterateChecked i) := by
  cases i with
  | wake due =>
    rw [RaftNode.iterateChecked]
    split
    · cases due <;> simpa using h.handled.advances
    · split
      · exact h.startElectionU64.advances
      · exact h.handled.advances
  | rpc q =>
    cases q with
    | requestVote term cand lli llt => exact (h.handleRequestVote term cand lli llt).advances
    | appendEntries term leaderId prev prevTerm entries commit =>
      have hprev : prev < 2 ^ 63 := hi.2.1
      rw [RaftNode.iterateChecked, n.handleAppendEntriesChecked_eq term leaderId hprev]
      exact (h.handleAppendEntries hidle term leaderId prev prevTerm entries commit).advances
    | requestVoteResp | appendEntriesResp =>
      refine ⟨n, ?_, h, hidle, le_rfl⟩
      rw [Nat.sub_self]
      rfl
  | voteResp r => exact (h.handleVoteResponse r).advances
  | appendResp peer r =>
    rw [RaftNode.iterateChecked, handleAppendResponseChecked_eq h.log_ne_nil peer.1 hi]
    exact (h.handleAppendResponse peer.1 r).advances
  | proposal command reply =>
    rw [RaftNode.iterateChecked]
    split
    · simpa using (h.appendProposal command reply).advances
    · exact h.handled.advances

/-- The indexes of one iteration are followed by those of the next. -/
theorem Indexed.runChecked (h : n.Indexed) (hidle : n.idle) {is : List (LoopInput peers)}
    (his : ∀ i ∈ is, i.Below63) : n.Advances (n.runChecked is) := by
  induction is generalizing n with
  | nil =>
    refine ⟨n, ?_, h, hidle, le_rfl⟩
    rw [Nat.sub_self]
    rfl
  | cons i is ih =>
    obtain ⟨n₁, hone, hindexed, hidle₁, hle⟩ := h.iterateChecked hidle (his i List.mem_cons_self)
    obtain ⟨n₂, hrest, hindexed₂, hidle₂, hle₂⟩ :=
      ih hindexed hidle₁ fun j hj => his j (List.mem_cons_of_mem i hj)
    refine ⟨n₂, ?_, hindexed₂, hidle₂, hle.trans hle₂⟩
    rw [RaftNode.runChecked, hone]
    simp only [Option.bind_eq_bind, Option.bind_some, hrest]
    have hstart : n₁.lastApplied + 1 = n.lastApplied + 1 + (n₁.lastApplied - n.lastApplied) := by
      omega
    have hsum : n₂.lastApplied - n.lastApplied =
        n₁.lastApplied - n.lastApplied + (n₂.lastApplied - n₁.lastApplied) := by omega
    rw [hsum, hstart, List.range'_append_1]
    rfl

/-- **No index of the log is out of bounds**, whatever a node receives : from its start it does
not panic, the sentinel stays, all next indexes are positive, and the indexes are applied from
1 on, one after the other. -/
theorem runChecked_indexes (id : NodeId) (peers : List NodeId) (is : List (LoopInput peers))
    (his : ∀ i ∈ is, i.Below63) :
    ∃ n, (startRaft id peers).runChecked is = some (n, List.range' 1 n.lastApplied) ∧
      n.log[0]? = some LogEntry.sentinel ∧ LogEntry.sentinel.term = 0 ∧
      (∀ (p : NodeId) (k : ℕ), n.nextIndex[p]? = some k → 1 ≤ k) ∧ n.idle := by
  obtain ⟨n, hrun, h, hidle, -⟩ := (indexed_startRaft id peers).runChecked le_rfl his
  exact ⟨n, hrun, h.sentinel, rfl, h.next, hidle⟩

/-- Two entries are applied, the log is cut to one entry, and a commit index far beyond it
sets the node's own back to 1. -/
def forgedInputs : List (LoopInput ["b"]) :=
  [.rpc (.appendEntries 5 "b" 0 0 [⟨5, []⟩, ⟨5, []⟩] 2),
    .rpc (.appendEntries 6 "b" 0 0 [⟨6, []⟩] 0),
    .rpc (.appendEntries 6 "b" 1 6 [] (2 ^ 63 - 1)),
    .voteResp (.appendEntriesResp 7 true (2 ^ 63 - 1))]

theorem runChecked_indexes_forged :
    ∃ n, (startRaft "a" ["b"]).runChecked forgedInputs =
        some (n, List.range' 1 n.lastApplied) ∧
      n.log[0]? = some LogEntry.sentinel ∧ LogEntry.sentinel.term = 0 ∧
      (∀ (p : NodeId) (k : ℕ), n.nextIndex[p]? = some k → 1 ≤ k) ∧ n.idle :=
  runChecked_indexes "a" ["b"] forgedInputs (by
    intro i hi
    simp only [forgedInputs, List.mem_cons, List.not_mem_nil, or_false] at hi
    rcases hi with rfl | rfl | rfl | rfl <;> simp [LoopInput.Below63, RaftRpc.Below63])

end RaftNode

end LoonyRedis
