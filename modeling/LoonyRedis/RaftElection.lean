import LoonyRedis.Lib.Quorum
import LoonyRedis.RaftCluster

/-!
# Election safety

A candidate counts votes without the voters' names, and a reply to an old request may
come late. The invariant therefore keeps a record of votes (`Grants`) that the nodes do
not : who voted for whom in which term. A vote is recorded once and never changes, since
a node's `voted_for` changes only with its term or from nothing.

`ElectionInv` says of the record that it agrees with every node's own vote, that each
positive reply in flight is backed by it, that a candidate's count is the length of a
list of distinct recorded voters with no call left to any of them, and that a leader has
a majority. Two majorities meet in a voter, who voted once (`elects_unique`).
-/

open Std (ExtTreeMap)

namespace LoonyRedis

/-- Who voted for whom, in each term. -/
abbrev Grants := NodeId → ℕ → Option NodeId

/-- The record after looking at the vote of every node. -/
def Grants.observe (g : Grants) (s : RaftCluster) : Grants := fun v T =>
  if v ∈ s.members ∧ T = (s.nodes v).currentTerm then (s.nodes v).votedFor else g v T

/-- A majority voted for `a` in term `T`. -/
def Grants.Elects (g : Grants) (members : List NodeId) (a : NodeId) (T : ℕ) : Prop :=
  ∃ V, Quorum.IsQuorum members V ∧ ∀ v ∈ V, g v T = some a

/-- Two majorities have a member in common, and it votes once in a term. -/
theorem elects_unique {g : Grants} {members : List NodeId} {a b : NodeId} {T : ℕ}
    (ha : g.Elects members a T) (hb : g.Elects members b T) : a = b := by
  obtain ⟨V, hV, hVa⟩ := ha
  obtain ⟨W, hW, hWb⟩ := hb
  obtain ⟨v, hv, hw⟩ := hV.meet hW
  have := (hVa v hv).symm.trans (hWb v hw)
  exact Option.some.inj this

/-- Recorded votes stay recorded. -/
def Grants.Extends (g g' : Grants) : Prop := ∀ v T c, g v T = some c → g' v T = some c

theorem Grants.Elects.mono {g g' : Grants} {members : List NodeId} {a : NodeId} {T : ℕ}
    (hle : g.Extends g') (h : g.Elects members a T) : g'.Elects members a T := by
  obtain ⟨V, hV, hVa⟩ := h
  exact ⟨V, hV, fun v hv => hle v T a (hVa v hv)⟩

/-! ## Votes of one node -/

namespace RaftNode

/-- From `n` to `n'` the term does not fall, and a vote of the term is kept. -/
structure VoteLe (n n' : RaftNode) : Prop where
  id_eq : n'.id = n.id
  peers_eq : n'.peers = n.peers
  term_le : n.currentTerm ≤ n'.currentTerm
  kept : n'.currentTerm = n.currentTerm → ∀ c, n.votedFor = some c → n'.votedFor = some c

/-- Nothing an election reads differs. -/
structure SameVote (n n' : RaftNode) : Prop where
  id_eq : n'.id = n.id
  peers_eq : n'.peers = n.peers
  term_eq : n'.currentTerm = n.currentTerm
  vote_eq : n'.votedFor = n.votedFor
  role_eq : n'.role = n.role
  count_eq : n'.votesReceived = n.votesReceived

/-- Nothing a log or the state machine holds differs. -/
structure SameData (n n' : RaftNode) : Prop where
  log_eq : n'.log = n.log
  commit_eq : n'.commitIndex = n.commitIndex
  lastApplied_eq : n'.lastApplied = n.lastApplied
  applied_eq : n'.applied = n.applied
  pending_eq : n'.pending = n.pending

theorem VoteLe.refl (n : RaftNode) : n.VoteLe n := ⟨rfl, rfl, le_refl _, fun _ _ h => h⟩

theorem SameVote.voteLe {n n' : RaftNode} (h : n.SameVote n') : n.VoteLe n' where
  id_eq := h.id_eq
  peers_eq := h.peers_eq
  term_le := h.term_eq.ge
  kept := fun _ _ hc => h.vote_eq.trans hc

variable (n : RaftNode)

/-- Stepping down gives a vote back only in a newer term. -/
theorem voteLe_stepDown (term : ℕ) : n.VoteLe (n.stepDown term) where
  id_eq := by simp
  peers_eq := by simp
  term_le := by simp
  kept := by
    intro hterm c hc
    rw [stepDown_currentTerm] at hterm
    rw [stepDown_votedFor, if_neg (by omega), hc]

/-- Stepping down touches neither the log nor what is committed. -/
theorem sameData_stepDown (term : ℕ) : n.SameData (n.stepDown term) :=
  ⟨by simp, by simp, by simp, by simp, by simp⟩

/-- An election is in a newer term, with a vote for the node itself. -/
theorem voteLe_startElection : n.VoteLe n.startElection.1 where
  id_eq := rfl
  peers_eq := rfl
  term_le := Nat.le_succ _
  kept := fun h => absurd h (Nat.succ_ne_self _)

/-- A request of a higher term makes the node a follower of that term; otherwise only
the vote may change, from nothing to the candidate. -/
theorem handleRequestVote_spec {term : ℕ} {cand : NodeId} {lli llt : ℕ}
    {r : RaftNode × RaftRpc} (h : n.handleRequestVote term cand lli llt = r) :
    n.VoteLe r.1 ∧ n.SameData r.1 ∧ (r.1.role = .follower ∨
      r.1.currentTerm = n.currentTerm ∧ r.1.role = n.role ∧
        r.1.votesReceived = n.votesReceived) ∧
    ∃ granted, r.2 = .requestVoteResp r.1.currentTerm granted ∧ (granted = true →
      r.1.currentTerm = term ∧ r.1.votedFor = some cand ∧ n.upToDate lli llt) := by
  obtain ⟨n', r⟩ := r
  have key : ∀ m : RaftNode, n.VoteLe m → n.SameData m → term ≤ m.currentTerm →
      (m.role = .follower ∨ m.currentTerm = n.currentTerm ∧ m.role = n.role ∧
        m.votesReceived = n.votesReceived) →
      (let grant : Bool := term ≥ m.currentTerm ∧
          (m.votedFor = none ∨ m.votedFor = some cand) ∧ m.upToDate lli llt
        let m := if grant then { m with votedFor := some cand } else m
        (m, RaftRpc.requestVoteResp m.currentTerm grant)) = (n', r) →
      n.VoteLe n' ∧ n.SameData n' ∧ (n'.role = .follower ∨
        n'.currentTerm = n.currentTerm ∧ n'.role = n.role ∧
          n'.votesReceived = n.votesReceived) ∧
      ∃ granted, r = .requestVoteResp n'.currentTerm granted ∧ (granted = true →
        n'.currentTerm = term ∧ n'.votedFor = some cand ∧ n.upToDate lli llt) := by
    intro m hle hdata hterm hrole heq
    simp only [decide_eq_true_eq, Prod.mk.injEq] at heq
    obtain ⟨rfl, rfl⟩ := heq
    split
    · next hg =>
      refine ⟨⟨hle.id_eq, hle.peers_eq, hle.term_le, ?_⟩,
        ⟨hdata.log_eq, hdata.commit_eq, hdata.lastApplied_eq, hdata.applied_eq, hdata.pending_eq⟩,
        hrole, _, rfl, ?_⟩
      · intro ht c hc
        rcases hg.2.1 with hv | hv
        · rw [hle.kept ht c hc] at hv
          cases hv
        · rw [hle.kept ht c hc] at hv
          exact hv.symm
      · intro _
        refine ⟨le_antisymm hg.1 hterm, rfl, ?_⟩
        simpa [upToDate, lastLogTerm, lastLogIndex, hdata.log_eq] using hg.2.2
    · next hg => exact ⟨hle, hdata, hrole, _, rfl, fun h => absurd (of_decide_eq_true h) hg⟩
  unfold handleRequestVote at h
  split at h
  · next hgt =>
    exact key _ (n.voteLe_stepDown term) (n.sameData_stepDown term) (by simp) (Or.inl rfl) h
  · next hgt =>
    exact key n ⟨rfl, rfl, le_refl _, fun _ _ hc => hc⟩ ⟨rfl, rfl, rfl, rfl, rfl⟩ (by omega)
      (Or.inr ⟨rfl, rfl, rfl⟩) h

/-- A request of an old term changes nothing; any other makes the node a follower of its
term. -/
theorem handleAppendEntries_vote {term : ℕ} {leaderId : NodeId} {prev prevTerm : ℕ}
    {entries : List LogEntry} {commit : ℕ} {r : RaftNode × RaftRpc}
    (h : n.handleAppendEntries term leaderId prev prevTerm entries commit = r) :
    (term < n.currentTerm ∧ r.1 = n) ∨
      (n.currentTerm ≤ term ∧ n.VoteLe r.1 ∧ r.1.role = .follower ∧
        r.1.currentTerm = term) := by
  subst h
  by_cases hlt : term < n.currentTerm
  · exact Or.inl ⟨hlt, by simp [handleAppendEntries, hlt]⟩
  · have hdown := n.voteLe_stepDown term
    have hterm : (n.stepDown term).currentTerm = term := by simp; omega
    refine Or.inr ⟨by omega, ?_⟩
    simp only [handleAppendEntries, if_neg hlt]
    split
    · exact ⟨⟨hdown.id_eq, hdown.peers_eq, hdown.term_le, hdown.kept⟩, rfl, hterm⟩
    · dsimp only
      split
      · exact ⟨⟨hdown.id_eq, hdown.peers_eq, hdown.term_le, hdown.kept⟩, rfl, hterm⟩
      · exact ⟨⟨hdown.id_eq, hdown.peers_eq, hdown.term_le, hdown.kept⟩, rfl, hterm⟩

/-- Committing touches no vote. -/
theorem sameVote_tryAdvanceCommit : n.SameVote n.tryAdvanceCommit := by
  unfold tryAdvanceCommit
  dsimp only
  split <;> exact ⟨rfl, rfl, rfl, rfl, rfl, rfl⟩

/-- An append response is no vote: it steps down or leaves the votes alone. -/
theorem handleAppendResponse_vote (peer : NodeId) (r : RaftRpc) :
    (∃ term, n.handleAppendResponse peer r = n.stepDown term) ∨
      n.SameVote (n.handleAppendResponse peer r) := by
  cases r with
  | appendEntriesResp term success matchIdx =>
    unfold handleAppendResponse
    dsimp only
    split
    · exact Or.inl ⟨term, rfl⟩
    · refine Or.inr ?_
      split
      · exact ⟨rfl, rfl, rfl, rfl, rfl, rfl⟩
      · split
        · have h := sameVote_tryAdvanceCommit { n with
            nextIndex := n.nextIndex.insert peer (matchIdx + 1)
            matchIndex := n.matchIndex.insert peer matchIdx }
          exact ⟨h.id_eq, h.peers_eq, h.term_eq, h.vote_eq, h.role_eq, h.count_eq⟩
        · exact ⟨rfl, rfl, rfl, rfl, rfl, rfl⟩
  | _ => exact Or.inr ⟨rfl, rfl, rfl, rfl, rfl, rfl⟩

/-- A reply to a vote request : a higher term, nothing, one more vote, or the last vote
that was missing. -/
theorem handleVoteResponse_vote (r : RaftRpc) :
    (∃ term, n.handleVoteResponse r = n.stepDown term) ∨ n.handleVoteResponse r = n ∨
      (r = .requestVoteResp n.currentTerm true ∧ n.role = .candidate ∧
        ((n.handleVoteResponse r = { n with votesReceived := n.votesReceived + 1 }) ∨
          (n.quorum ≤ n.votesReceived + 1 ∧ n.handleVoteResponse r =
            { n with votesReceived := n.votesReceived + 1 }.becomeLeader))) := by
  cases r with
  | requestVoteResp term granted =>
    unfold handleVoteResponse
    dsimp only
    split
    · exact Or.inl ⟨term, rfl⟩
    · next hle =>
      refine Or.inr ?_
      split
      · exact Or.inl rfl
      · next hcand =>
        rw [not_or, not_not] at hcand
        have hterm : term = n.currentTerm := by omega
        cases granted with
        | false => exact Or.inl rfl
        | true =>
          refine Or.inr ⟨by rw [hterm], hcand.1, ?_⟩
          rw [if_pos rfl]
          split
          · next hq => exact Or.inr ⟨hq, rfl⟩
          · exact Or.inl rfl
  | _ => exact Or.inr (Or.inl rfl)

end RaftNode

/-! ## The invariant -/

/-- Caller, callee and term of a vote request. -/
def Call.voteKey (c : Call) : Option (NodeId × NodeId × ℕ) :=
  match c.request with
  | .requestVote term _ _ _ => some (c.caller, c.callee, term)
  | _ => none

/-- The vote requests in flight or answered. -/
def RaftCluster.voteKeys (s : RaftCluster) : List (NodeId × NodeId × ℕ) :=
  s.calls.filterMap Call.voteKey

/-- The node knows its own id and its peers. -/
structure RaftNode.Configured (members : List NodeId) (a : NodeId) (n : RaftNode) : Prop where
  id_eq : n.id = a
  nodup : n.peers.Nodup
  mem_iff : ∀ b, b ∈ n.peers ↔ b ∈ members ∧ b ≠ a

/-- A candidate's count is a list of voters it has no call left to; a leader has a
majority. -/
structure RaftNode.Backed (members : List NodeId) (g : Grants)
    (keys : List (NodeId × NodeId × ℕ)) (a : NodeId) (n : RaftNode) : Prop where
  candidate : n.role = .candidate → ∃ V : List NodeId, V.Nodup ∧ V.length = n.votesReceived ∧
    ∀ v ∈ V, v ∈ members ∧ g v n.currentTerm = some a ∧ (a, v, n.currentTerm) ∉ keys
  leader : n.role = .leader → g.Elects members a n.currentTerm

/-- A call goes between two members. A vote request names its caller, whose term it does
not exceed, and a positive reply to it is a recorded vote. -/
structure Call.Backed (members : List NodeId) (g : Grants) (cur : NodeId → ℕ) (c : Call) :
    Prop where
  caller_mem : c.caller ∈ members
  callee_mem : c.callee ∈ members
  vote : ∀ term cand lli llt, c.request = .requestVote term cand lli llt →
    cand = c.caller ∧ term ≤ cur c.caller ∧ ∀ r, c.reply = some r →
      ∃ t granted, r = .requestVoteResp t granted ∧
        (granted = true → t = term ∧ g c.callee term = some c.caller)

/-- Each vote is in the history, and candidates and leaders count only votes that were given. -/
structure ElectionInv (s : RaftCluster) (g : Grants) : Prop where
  nodup : s.members.Nodup
  config : ∀ a ∈ s.members, (s.nodes a).Configured s.members a
  current : ∀ a ∈ s.members, g a (s.nodes a).currentTerm = (s.nodes a).votedFor
  future : ∀ a ∈ s.members, ∀ T, (s.nodes a).currentTerm < T → g a T = none
  backed : ∀ a ∈ s.members, (s.nodes a).Backed s.members g s.voteKeys a
  keys : s.voteKeys.Nodup
  calls : ∀ c ∈ s.calls, c.Backed s.members g fun a => (s.nodes a).currentTerm

/-! ## Vote requests in flight -/

namespace RaftCluster

variable {s : RaftCluster} {k : ℕ} {c : Call}

theorem calls_eq (hk : s.calls[k]? = some c) :
    s.calls = s.calls.take k ++ c :: s.calls.drop (k + 1) := by
  obtain ⟨hlt, rfl⟩ := List.getElem?_eq_some_iff.mp hk
  rw [List.getElem_cons_drop, List.take_append_drop]

/-- Filling in a reply keeps the keys. -/
theorem filterMap_voteKey_set (hk : s.calls[k]? = some c) (r : RaftRpc) :
    (s.calls.set k { c with reply := some r }).filterMap Call.voteKey = s.voteKeys := by
  have hlt := (List.getElem?_eq_some_iff.mp hk).1
  have hset : s.calls.set k { c with reply := some r } =
      s.calls.take k ++ { c with reply := some r } :: s.calls.drop (k + 1) := by
    rw [List.set_eq_take_append_cons_drop, if_pos hlt]
  rw [hset, voteKeys]
  conv_rhs => rw [calls_eq hk]
  simp only [List.filterMap_append, List.filterMap_cons, Call.voteKey]

/-- A call that ends leaves no new votes under way. -/
theorem filterMap_voteKey_eraseIdx (k : ℕ) :
    List.Sublist ((s.calls.eraseIdx k).filterMap Call.voteKey) s.voteKeys :=
  (List.eraseIdx_sublist s.calls k).filterMap _

/-- Once delivered, a vote request is gone for good. -/
theorem voteKey_notMem_eraseIdx (hnd : s.voteKeys.Nodup) (hk : s.calls[k]? = some c)
    {key : NodeId × NodeId × ℕ} (hkey : c.voteKey = some key) :
    key ∉ (s.calls.eraseIdx k).filterMap Call.voteKey := by
  rw [voteKeys, calls_eq hk, List.filterMap_append, List.filterMap_cons_some hkey,
    List.nodup_middle, List.nodup_cons] at hnd
  rw [List.eraseIdx_eq_take_drop_succ, List.filterMap_append]
  exact hnd.1

/-- Heartbeats ask for no votes. -/
theorem voteKeys_send_heartbeats (s : RaftCluster) (a : NodeId) (n : RaftNode) :
    (s.send a n.sendHeartbeats).voteKeys = s.voteKeys := by
  have hnil : (n.sendHeartbeats.map fun m => (⟨a, m.1, m.2, none⟩ : Call)).filterMap
      Call.voteKey = [] := by
    simp [RaftNode.sendHeartbeats, RaftNode.sendAppendEntriesTo, Call.voteKey,
      List.filterMap_eq_nil_iff]
  rw [voteKeys, send, List.filterMap_append, hnil, List.append_nil, voteKeys]

/-- A new election adds one request for each peer. -/
theorem voteKeys_send_startElection (s : RaftCluster) (a : NodeId) (n : RaftNode) :
    (s.send a n.startElection.2).voteKeys =
      s.voteKeys ++ n.peers.map fun p => (a, p, n.currentTerm + 1) := by
  have hmap : (n.startElection.2.map fun m => (⟨a, m.1, m.2, none⟩ : Call)).filterMap
      Call.voteKey = n.peers.map fun p => (a, p, n.currentTerm + 1) := by
    rw [RaftNode.startElection, List.map_map, List.filterMap_map]
    exact congrFun List.filterMap_eq_map n.peers
  rw [voteKeys, send, List.filterMap_append, hmap, voteKeys]

end RaftCluster

/-- With all the others as peers, `quorum` is a majority of the members. -/
theorem RaftNode.Configured.quorum_eq {members : List NodeId} {a : NodeId} {n : RaftNode}
    (hc : n.Configured members a) (hnd : members.Nodup) (ha : a ∈ members) :
    n.quorum = members.length / 2 + 1 := by
  have hperm : n.peers.Perm (members.erase a) := by
    rw [List.perm_ext_iff_of_nodup hc.nodup (hnd.erase a)]
    intro b
    rw [hc.mem_iff b, hnd.mem_erase_iff, and_comm]
  have hlen := hperm.length_eq
  rw [List.length_erase_of_mem ha] at hlen
  have := List.length_pos_of_mem ha
  unfold quorum
  omega

theorem RaftNode.Configured.of_voteLe {members : List NodeId} {a : NodeId} {n n' : RaftNode}
    (hc : n.Configured members a) (hle : n.VoteLe n') : n'.Configured members a where
  id_eq := hle.id_eq.trans hc.id_eq
  nodup := hle.peers_eq ▸ hc.nodup
  mem_iff := hle.peers_eq ▸ hc.mem_iff

/-- Votes stay given, and no call is asked twice. -/
theorem RaftNode.Backed.mono {members : List NodeId} {g g' : Grants}
    {keys keys' : List (NodeId × NodeId × ℕ)} {a : NodeId} {n n' : RaftNode}
    (h : n.Backed members g keys a) (hg : g.Extends g')
    (hkeys : ∀ v, (a, v, n.currentTerm) ∈ keys' → (a, v, n.currentTerm) ∈ keys)
    (hterm : n'.currentTerm = n.currentTerm) (hrole : n'.role = n.role)
    (hcount : n'.votesReceived = n.votesReceived) : n'.Backed members g' keys' a where
  candidate := by
    intro hc
    obtain ⟨V, hnd, hlen, hV⟩ := h.candidate (hrole ▸ hc)
    refine ⟨V, hnd, hlen.trans hcount.symm, fun v hv => ?_⟩
    obtain ⟨hm, hv', hk⟩ := hV v hv
    rw [hterm]
    exact ⟨hm, hg v _ _ hv', fun hmem => hk (hkeys v hmem)⟩
  leader := by
    intro hl
    rw [hterm]
    exact (h.leader (hrole ▸ hl)).mono hg

/-- A follower counts no votes. -/
theorem RaftNode.Backed.of_follower {members : List NodeId} {g : Grants}
    {keys : List (NodeId × NodeId × ℕ)} {a : NodeId} {n : RaftNode} (h : n.role = .follower) :
    n.Backed members g keys a where
  candidate := by simp [h]
  leader := by simp [h]

theorem Call.Backed.mono {members : List NodeId} {g g' : Grants} {cur cur' : NodeId → ℕ}
    {c : Call} (h : c.Backed members g cur) (hg : g.Extends g')
    (hcur : ∀ a ∈ members, cur a ≤ cur' a) : c.Backed members g' cur' where
  caller_mem := h.caller_mem
  callee_mem := h.callee_mem
  vote := by
    intro term cand lli llt hreq
    obtain ⟨hcand, hterm, hreply⟩ := h.vote term cand lli llt hreq
    refine ⟨hcand, hterm.trans (hcur _ h.caller_mem), fun r hr => ?_⟩
    obtain ⟨t, granted, hr', hgr⟩ := hreply r hr
    exact ⟨t, granted, hr', fun ht => ⟨(hgr ht).1, hg _ _ _ (hgr ht).2⟩⟩

/-! ## Every step keeps votes -/

namespace RaftCluster.Move

variable {s t : RaftCluster} {e : Event}

theorem members_eq (h : s.Move e t) : t.members = s.members := by
  cases h <;> rfl

theorem voteLe_update {a : NodeId} {n : RaftNode} (hle : (s.nodes a).VoteLe n) (b : NodeId) :
    (s.nodes b).VoteLe (Function.update s.nodes a n b) := by
  rcases eq_or_ne b a with rfl | hb
  · rwa [Function.update_self]
  · rw [Function.update_of_ne hb]
    exact .refl _

/-- Along every move, terms grow and votes stay. -/
theorem voteLe (h : s.Move e t) : ∀ b, (s.nodes b).VoteLe (t.nodes b) := by
  cases h with
  | heartbeat => exact fun b => .refl _
  | elect => exact voteLe_update (RaftNode.voteLe_startElection _)
  | recvVote hk hreq hreply hr =>
    exact voteLe_update (RaftNode.handleRequestVote_spec _ hr).1
  | recvAppend hk hreq hreply hidle hr =>
    refine voteLe_update ?_
    rcases RaftNode.handleAppendEntries_vote _ hr with ⟨-, hsame⟩ | ⟨-, hle, -, -⟩
    · rw [hsame]
      exact .refl _
    · exact hle
  | @replyVote k c r =>
    refine voteLe_update ?_
    rcases (s.nodes c.caller).handleVoteResponse_vote r with
      ⟨T, hn⟩ | hn | ⟨-, -, hn | ⟨-, hn⟩⟩
    · exact hn ▸ RaftNode.voteLe_stepDown _ T
    · exact hn.symm ▸ .refl _
    · rw [hn]
      exact ⟨rfl, rfl, le_refl _, fun _ _ h => h⟩
    · rw [hn]
      exact ⟨rfl, rfl, le_refl _, fun _ _ h => h⟩
  | @replyAppend k c r =>
    refine voteLe_update ?_
    rcases (s.nodes c.caller).handleAppendResponse_vote c.callee r with ⟨T, hn⟩ | hsame
    · exact hn ▸ RaftNode.voteLe_stepDown _ T
    · exact hsame.voteLe
  | drop => exact fun b => .refl _
  | accept => exact voteLe_update ⟨rfl, rfl, le_refl _, fun _ _ h => h⟩
  | refuse => exact fun b => .refl _
  | apply ha hlt hr =>
    obtain ⟨entry, -, rfl⟩ := Option.map_eq_some_iff.mp hr
    exact voteLe_update ⟨rfl, rfl, le_refl _, fun _ _ h => h⟩

end RaftCluster.Move

namespace ElectionInv

variable {s t : RaftCluster} {g : Grants} {e : Event} {a : NodeId} {n : RaftNode}

section update

variable (inv : ElectionInv s g) (hm : t.members = s.members)
  (hle : ∀ b, (s.nodes b).VoteLe (t.nodes b))
include inv hm hle

/-- Observing the cluster after a step adds to the record. -/
theorem extends_observe : g.Extends (g.observe t) := by
  intro v T c hc
  unfold Grants.observe
  split
  · next hT =>
    have hv : v ∈ s.members := hm ▸ hT.1
    rcases (hle v).term_le.lt_or_eq with hlt | heq
    · rw [hT.2, inv.future v hv _ hlt] at hc
      cases hc
    · refine (hle v).kept heq.symm c ?_
      rw [← inv.current v hv, heq, ← hT.2, hc]
  · exact hc

/-- One step of one node, with what it does to the calls. -/
theorem update (hn : ∀ b, b ≠ a → t.nodes b = s.nodes b) (hkeys : t.voteKeys.Nodup)
    (hother : ∀ b v T, b ≠ a → (b, v, T) ∈ t.voteKeys → (b, v, T) ∈ s.voteKeys)
    (hback : a ∈ s.members → g.Extends (g.observe t) →
      (t.nodes a).Backed s.members (g.observe t) t.voteKeys a)
    (hcalls : g.Extends (g.observe t) → ∀ c ∈ t.calls, c ∈ s.calls ∨
      c.Backed s.members (g.observe t) fun b => (t.nodes b).currentTerm) :
    ElectionInv t (g.observe t) := by
  have hext := inv.extends_observe hm hle
  constructor
  · exact hm ▸ inv.nodup
  · intro b hb
    rw [hm] at hb ⊢
    exact (inv.config b hb).of_voteLe (hle b)
  · intro b hb
    simp [Grants.observe, hb]
  · intro b hb T hT
    rw [hm] at hb
    rw [Grants.observe, if_neg (by omega)]
    exact inv.future b hb T ((hle b).term_le.trans_lt hT)
  · intro b hb
    rw [hm] at hb ⊢
    rcases eq_or_ne b a with rfl | hba
    · exact hback hb hext
    · rw [hn b hba]
      exact (inv.backed b hb).mono hext (fun v hv => hother b v _ hba hv) rfl rfl rfl
  · exact hkeys
  · intro c hc
    rw [hm]
    rcases hcalls hext c hc with h | h
    · exact (inv.calls c h).mono hext fun b _ => (hle b).term_le
    · exact h

end update

/-- A step that leaves every node as it is, and only loses calls or adds appends. -/
theorem sameNodes (inv : ElectionInv s g) (hm : t.members = s.members)
    (hn : t.nodes = s.nodes) (hkeys : List.Sublist t.voteKeys s.voteKeys)
    (hcalls : ∀ c ∈ t.calls, c ∈ s.calls ∨ (c.caller ∈ s.members ∧ c.callee ∈ s.members ∧
      c.voteKey = none)) : ElectionInv t (g.observe t) := by
  refine inv.update (a := "") hm (fun b => hn ▸ .refl _) (fun b _ => by rw [hn])
    (inv.keys.sublist hkeys) (fun b v T _ h => hkeys.subset h) (fun ha hext => ?_)
    fun hext c hc => ?_
  · rw [hn]
    exact (inv.backed _ ha).mono hext (fun v h => hkeys.subset h) rfl rfl rfl
  · refine (hcalls c hc).imp_right fun ⟨h1, h2, h3⟩ => ⟨h1, h2, fun _ _ _ _ hreq => ?_⟩
    rw [Call.voteKey, hreq] at h3
    cases h3

/-- The calls of a message batch to peers. -/
theorem mem_send_heartbeats (inv : ElectionInv s g) (ha : a ∈ s.members)
    (hp : n.peers = (s.nodes a).peers) {c : Call}
    (hc : c ∈ n.sendHeartbeats.map fun m => (⟨a, m.1, m.2, none⟩ : Call)) :
    c.caller ∈ s.members ∧ c.callee ∈ s.members ∧ c.voteKey = none := by
  simp only [RaftNode.sendHeartbeats, List.map_map, List.mem_map] at hc
  obtain ⟨p, hpeer, rfl⟩ := hc
  exact ⟨ha, (((inv.config a ha).mem_iff p).mp (hp ▸ hpeer)).1, rfl⟩

/-- Requests of a term the node has not reached cannot have been sent. -/
theorem voteKey_notMem_of_lt (inv : ElectionInv s g) {T : ℕ}
    (hT : (s.nodes a).currentTerm < T) (v : NodeId) : (a, v, T) ∉ s.voteKeys := by
  intro hv
  obtain ⟨c, hc, hkey⟩ := List.mem_filterMap.mp hv
  unfold Call.voteKey at hkey
  split at hkey
  · next term cand lli llt hreq =>
    cases hkey
    exact absurd ((inv.calls c hc).vote _ _ _ _ hreq).2.1 (by omega)
  · cases hkey

/-- A node that starts an election votes for itself, and asks each peer once. -/
theorem elect_step (inv : ElectionInv s g) (ha : a ∈ s.members)
    (hle : ∀ b, (s.nodes b).VoteLe (t.nodes b))
    (ht : t = (s.setNode a (s.nodes a).startElection.1).send a (s.nodes a).startElection.2) :
    ElectionInv t (g.observe t) := by
  have hconf := inv.config a ha
  have hm : t.members = s.members := by rw [ht]; rfl
  have hkeys : t.voteKeys = s.voteKeys ++
      (s.nodes a).peers.map fun p => (a, p, (s.nodes a).currentTerm + 1) := by
    rw [ht]
    exact RaftCluster.voteKeys_send_startElection (s.setNode a _) a (s.nodes a)
  have hself : t.nodes a = (s.nodes a).startElection.1 := by
    rw [ht]
    exact Function.update_self ..
  have hfresh := inv.voteKey_notMem_of_lt (a := a) (Nat.lt_succ_self _)
  refine inv.update (a := a) hm hle (fun b hb => ?_) ?_ ?_ ?_ ?_
  · rw [ht]
    exact Function.update_of_ne hb ..
  · rw [hkeys, List.nodup_append]
    refine ⟨inv.keys, hconf.nodup.map fun p q h => by simpa using h, ?_⟩
    rintro x hx y hy rfl
    obtain ⟨p, -, rfl⟩ := List.mem_map.mp hy
    exact hfresh p hx
  · intro b v T hb hmem
    rw [hkeys, List.mem_append] at hmem
    refine hmem.resolve_right fun h => hb ?_
    obtain ⟨p, -, hp⟩ := List.mem_map.mp h
    exact (congrArg Prod.fst hp).symm
  · intro _ _
    rw [hself]
    refine ⟨fun _ => ⟨[a], by simp, rfl, ?_⟩, fun h => (by cases h)⟩
    intro v hv
    obtain rfl := List.mem_singleton.mp hv
    refine ⟨ha, ?_, ?_⟩
    · rw [Grants.observe, if_pos ⟨hm ▸ ha, by rw [hself]⟩, hself]
      exact congrArg some hconf.id_eq
    · rw [hkeys, List.mem_append, not_or]
      refine ⟨hfresh v, fun h => ?_⟩
      obtain ⟨p, hp, heq⟩ := List.mem_map.mp h
      obtain rfl : p = v := congrArg (fun x => x.2.1) heq
      exact ((hconf.mem_iff p).mp hp).2 rfl
  · intro _ c hc
    rw [ht] at hc
    refine (List.mem_append.mp hc).imp_right fun hc => ?_
    simp only [RaftNode.startElection, List.map_map, List.mem_map] at hc
    obtain ⟨p, hp, rfl⟩ := hc
    refine ⟨ha, ((hconf.mem_iff p).mp hp).1, ?_⟩
    intro term cand lli llt hreq
    simp only [Function.comp_apply, RaftRpc.requestVote.injEq] at hreq
    obtain ⟨rfl, rfl, -, -⟩ := hreq
    exact ⟨hconf.id_eq, by simp [hself, RaftNode.startElection], by simp⟩

section call

variable {k : ℕ} {c : Call} (inv : ElectionInv s g) (hk : s.calls[k]? = some c)
  (hm : t.members = s.members) (hle : ∀ b, (s.nodes b).VoteLe (t.nodes b))
include inv hk hm hle

/-- The callee serves the call. -/
theorem receive_step {r : RaftNode × RaftRpc}
    (ht : t = { s.setNode c.callee r.1 with
      calls := s.calls.set k { c with reply := some r.2 } })
    (hback : c.callee ∈ s.members → g.Extends (g.observe t) →
      r.1.Backed s.members (g.observe t) s.voteKeys c.callee)
    (hcall : t.nodes c.callee = r.1 → { c with reply := some r.2 }.Backed s.members (g.observe t)
      fun b => (t.nodes b).currentTerm) :
    ElectionInv t (g.observe t) := by
  have hkeys : t.voteKeys = s.voteKeys := by
    rw [ht]
    exact RaftCluster.filterMap_voteKey_set hk r.2
  have hself : t.nodes c.callee = r.1 := by
    rw [ht]
    exact Function.update_self ..
  refine inv.update hm hle (fun b hb => by rw [ht]; exact Function.update_of_ne hb ..)
    (hkeys ▸ inv.keys) (fun b v T _ h => hkeys ▸ h) (fun ha hext => ?_) fun hext d hd => ?_
  · rw [hself, hkeys]
    exact hback ha hext
  · rw [ht] at hd
    refine (List.mem_or_eq_of_mem_set hd).imp_right fun hd => ?_
    subst hd
    exact hcall hself

/-- A vote is given to the candidate that asked, at most one in a term. -/
theorem recvVote_step {term : ℕ} {cand : NodeId} {lli llt : ℕ} {r : RaftNode × RaftRpc}
    (hreq : c.request = .requestVote term cand lli llt)
    (hr : (s.nodes c.callee).handleRequestVote term cand lli llt = r)
    (ht : t = { s.setNode c.callee r.1 with
      calls := s.calls.set k { c with reply := some r.2 } }) :
    ElectionInv t (g.observe t) := by
  have hc := inv.calls c (List.mem_of_getElem? hk)
  obtain ⟨-, -, hrole, granted, hresp, hgrant⟩ :=
    (s.nodes c.callee).handleRequestVote_spec hr
  refine inv.receive_step hk hm hle ht (fun ha hext => ?_) fun hself => ?_
  · rcases hrole with hrole | ⟨hterm, hrole, hcount⟩
    · exact .of_follower hrole
    · exact (inv.backed _ ha).mono hext (fun v h => h) hterm hrole hcount
  · refine ⟨hc.caller_mem, hc.callee_mem, fun T cand' lli' llt' hreq' => ?_⟩
    obtain ⟨hcand, hterm, -⟩ := hc.vote T cand' lli' llt' hreq'
    refine ⟨hcand, hterm.trans (hle c.caller).term_le, fun r' hr' => ?_⟩
    obtain rfl : r.2 = r' := Option.some.inj hr'
    refine ⟨_, granted, hresp, fun hg => ?_⟩
    obtain ⟨hT, hvote, -⟩ := hgrant hg
    obtain ⟨rfl, rfl, -, -⟩ : term = T ∧ cand = cand' ∧ lli = lli' ∧ llt = llt' := by
      simpa [hreq] using hreq'
    refine ⟨hT, ?_⟩
    rw [Grants.observe, if_pos ⟨hm ▸ hc.callee_mem, by rw [hself, hT]⟩, hself, hvote, hcand]

/-- An append request is no vote. -/
theorem recvAppend_step {term : ℕ} {leaderId : NodeId} {prev prevTerm : ℕ}
    {entries : List LogEntry} {commit : ℕ} {r : RaftNode × RaftRpc}
    (hreq : c.request = .appendEntries term leaderId prev prevTerm entries commit)
    (hr : (s.nodes c.callee).handleAppendEntries term leaderId prev prevTerm entries commit = r)
    (ht : t = { s.setNode c.callee r.1 with
      calls := s.calls.set k { c with reply := some r.2 } }) :
    ElectionInv t (g.observe t) := by
  have hc := inv.calls c (List.mem_of_getElem? hk)
  refine inv.receive_step hk hm hle ht (fun ha hext => ?_) fun _ => ?_
  · rcases (s.nodes c.callee).handleAppendEntries_vote hr with ⟨-, hsame⟩ | ⟨-, -, hrole, -⟩
    · rw [hsame]
      exact (inv.backed _ ha).mono hext (fun v h => h) rfl rfl rfl
    · exact .of_follower hrole
  · exact ⟨hc.caller_mem, hc.callee_mem, fun _ _ _ _ h => by simp [hreq] at h⟩

omit hk in
/-- The caller takes the reply. -/
theorem reply_step {n : RaftNode}
    (ht : t = { s.setNode c.caller n with calls := s.calls.eraseIdx k })
    (hback : List.Sublist t.voteKeys s.voteKeys → c.caller ∈ s.members →
      g.Extends (g.observe t) → n.Backed s.members (g.observe t) t.voteKeys c.caller) :
    ElectionInv t (g.observe t) := by
  have hsub : List.Sublist t.voteKeys s.voteKeys := by
    rw [ht]
    exact RaftCluster.filterMap_voteKey_eraseIdx k
  have hself : t.nodes c.caller = n := by
    rw [ht]
    exact Function.update_self ..
  refine inv.update hm hle (fun b hb => by rw [ht]; exact Function.update_of_ne hb ..)
    (inv.keys.sublist hsub) (fun b v T _ h => hsub.subset h) (fun ha hext => ?_)
    fun _ d hd => Or.inl (List.mem_of_mem_eraseIdx (by rwa [ht] at hd))
  rw [hself]
  exact hback hsub ha hext

/-- A granted vote in the current term adds a voter not counted before. -/
theorem replyVote_step {r : RaftRpc} {term : ℕ} {cand : NodeId} {lli llt : ℕ}
    (hreq : c.request = .requestVote term cand lli llt) (hreply : c.reply = some r)
    (ht : t = { s.setNode c.caller ((s.nodes c.caller).handleVoteResponse r) with
      calls := s.calls.eraseIdx k }) :
    ElectionInv t (g.observe t) := by
  have hmem : c ∈ s.calls := List.mem_of_getElem? hk
  have hc := inv.calls c hmem
  refine inv.reply_step hm hle ht fun hsub ha hext => ?_
  rcases (s.nodes c.caller).handleVoteResponse_vote r with
    ⟨T, hn⟩ | hn | ⟨hr, hrole, hcases⟩
  · exact .of_follower (by rw [hn]; rfl)
  · rw [hn]
    exact (inv.backed _ ha).mono hext (fun v h => hsub.subset h) rfl rfl rfl
  · obtain ⟨hcand, -, hgr⟩ := hc.vote term cand lli llt hreq
    obtain ⟨T, granted, hr', hback⟩ := hgr r hreply
    obtain ⟨rfl, rfl⟩ : (s.nodes c.caller).currentTerm = T ∧ true = granted := by
      simpa [hr] using hr'
    obtain ⟨hterm, hvote⟩ := hback rfl
    have hkey : c.voteKey = some (c.caller, c.callee, (s.nodes c.caller).currentTerm) := by
      rw [Call.voteKey, hreq, hterm]
    have hgone : (c.caller, c.callee, (s.nodes c.caller).currentTerm) ∉ t.voteKeys := by
      rw [ht]
      exact RaftCluster.voteKey_notMem_eraseIdx inv.keys hk hkey
    obtain ⟨V, hnd, hlen, hV⟩ := (inv.backed _ ha).candidate hrole
    have hnew : c.callee ∉ V := fun h =>
      (hV _ h).2.2 (List.mem_filterMap.mpr ⟨c, hmem, hkey⟩)
    have hnd' : (c.callee :: V).Nodup := List.nodup_cons.mpr ⟨hnew, hnd⟩
    have hall : ∀ v ∈ c.callee :: V, v ∈ s.members ∧
        g.observe t v (s.nodes c.caller).currentTerm = some c.caller ∧
          (c.caller, v, (s.nodes c.caller).currentTerm) ∉ t.voteKeys := by
      intro v hv
      rcases List.mem_cons.mp hv with rfl | hv
      · exact ⟨hc.callee_mem, hext _ _ _ (hterm ▸ hvote), hgone⟩
      · exact ⟨(hV v hv).1, hext _ _ _ (hV v hv).2.1, fun h => (hV v hv).2.2 (hsub.subset h)⟩
    rcases hcases with hn | ⟨hq, hn⟩
    · rw [hn]
      exact ⟨fun _ => ⟨c.callee :: V, hnd', by simp [hlen], hall⟩,
        fun h => absurd (hrole.symm.trans h) (by simp)⟩
    · rw [hn]
      refine ⟨fun h => (by cases h), fun _ => ⟨c.callee :: V, ⟨hnd', fun v hv => (hall v hv).1,
        ?_⟩, fun v hv => (hall v hv).2.1⟩⟩
      rw [List.length_cons, hlen, ← (inv.config _ ha).quorum_eq inv.nodup ha]
      exact hq

omit hk in

/-- An append response is no vote. -/
theorem replyAppend_step {r : RaftRpc}
    (ht : t = { s.setNode c.caller ((s.nodes c.caller).handleAppendResponse c.callee r) with
      calls := s.calls.eraseIdx k }) :
    ElectionInv t (g.observe t) := by
  refine inv.reply_step hm hle ht fun hsub ha hext => ?_
  rcases (s.nodes c.caller).handleAppendResponse_vote c.callee r with ⟨T, hn⟩ | hsame
  · exact .of_follower (by rw [hn]; rfl)
  · exact (inv.backed _ ha).mono hext (fun v h => hsub.subset h) hsame.term_eq
      hsame.role_eq hsame.count_eq

end call

/-- A proposal is no vote. -/
theorem accept_step (inv : ElectionInv s g) (ha : a ∈ s.members)
    (hle : ∀ b, (s.nodes b).VoteLe (t.nodes b)) {command : Bytes}
    (hn : t.nodes = Function.update s.nodes a ((s.nodes a).appendProposal command s.opened).1)
    (hm : t.members = s.members)
    (hc : t.calls = (s.send a ((s.nodes a).appendProposal command s.opened).2).calls) :
    ElectionInv t (g.observe t) := by
  have hkeys : t.voteKeys = s.voteKeys := by
    unfold RaftCluster.voteKeys
    rw [hc]
    exact RaftCluster.voteKeys_send_heartbeats s a _
  refine inv.update hm hle (fun b hb => by rw [hn]; exact Function.update_of_ne hb ..)
    (hkeys ▸ inv.keys) (fun b v T _ h => hkeys ▸ h) (fun ha hext => ?_) fun _ c hcall => ?_
  · rw [hn, Function.update_self]
    exact (inv.backed a ha).mono hext (fun v h => hkeys ▸ h) rfl rfl rfl
  · rw [hc] at hcall
    refine (List.mem_append.mp hcall).imp_right fun hcall => ?_
    obtain ⟨h1, h2, h3⟩ := inv.mem_send_heartbeats ha (by rfl) hcall
    refine ⟨h1, h2, fun _ _ _ _ hreq => ?_⟩
    rw [Call.voteKey, hreq] at h3
    cases h3

/-- Every step keeps the invariant, with the votes it casts added to the record. -/
theorem step (inv : ElectionInv s g) (h : s.Move e t) : ElectionInv t (g.observe t) := by
  have hle := h.voteLe
  have hm := h.members_eq
  cases h with
  | heartbeat ha hrole =>
    refine inv.sameNodes hm rfl ?_ fun c hc => ?_
    · rw [RaftCluster.voteKeys_send_heartbeats]
    · exact (List.mem_append.mp hc).imp_right fun hc => inv.mem_send_heartbeats ha rfl hc
  | elect ha hrole => exact inv.elect_step ha hle rfl
  | recvVote hk hreq hreply hr => exact inv.recvVote_step hk hm hle hreq hr rfl
  | recvAppend hk hreq hreply hidle hr => exact inv.recvAppend_step hk hm hle hreq hr rfl
  | replyVote hk hreq hreply => exact inv.replyVote_step hk hm hle hreq hreply rfl
  | replyAppend hk hreq hreply => exact inv.replyAppend_step hm hle rfl
  | drop =>
    exact inv.sameNodes hm rfl (RaftCluster.filterMap_voteKey_eraseIdx _)
      fun c hc => Or.inl (List.mem_of_mem_eraseIdx hc)
  | accept ha hrole => exact inv.accept_step ha hle rfl hm rfl
  | refuse ha hrole =>
    exact inv.sameNodes hm rfl (List.Sublist.refl _) fun c hc => Or.inl hc
  | @apply a r ha hlt hr =>
    obtain ⟨entry, -, rfl⟩ := Option.map_eq_some_iff.mp hr
    refine inv.update hm hle (fun b hb => Function.update_of_ne hb ..) inv.keys
      (fun b v T _ h => h) (fun ha hext => ?_) fun _ c hc => Or.inl hc
    show RaftNode.Backed _ _ _ _ (Function.update s.nodes a _ a)
    rw [Function.update_self]
    exact (inv.backed a ha).mono hext (fun _ h => h) rfl rfl rfl

/-- No votes have been cast at the start. -/
theorem start (h : s.Start) : ElectionInv s fun _ _ => none where
  nodup := h.nodup
  config := by
    intro a ha
    obtain ⟨peers, hnd, hmem, hn⟩ := h.started a ha
    rw [hn]
    exact ⟨rfl, hnd, hmem⟩
  current := by
    intro a ha
    obtain ⟨peers, -, -, hn⟩ := h.started a ha
    rw [hn]
    rfl
  future := fun _ _ _ _ => rfl
  backed := by
    intro a ha
    obtain ⟨peers, -, -, hn⟩ := h.started a ha
    rw [hn]
    exact .of_follower rfl
  keys := by simp [RaftCluster.voteKeys, h.calls]
  calls := by simp [h.calls]

/-- Along a run the members stay, and the record of votes grows. -/
theorem run (inv : ElectionInv s g) (h : s.Reaches t) :
    t.members = s.members ∧ ∃ g', g.Extends g' ∧ ElectionInv t g' := by
  have hkeep : ∀ (u : RaftCluster) (e : Event) (v : RaftCluster) (g₁ : Grants),
      (u.members = s.members ∧ ElectionInv u g₁) → True → u.step e = some v →
        ∃ g₂, g₁.Extends g₂ ∧ v.members = s.members ∧ ElectionInv v g₂ := by
    intro u e v g₁ hu _ hstep
    have hmove := RaftCluster.move_of_step hstep
    exact ⟨g₁.observe v, hu.2.extends_observe hmove.members_eq hmove.voteLe,
      hmove.members_eq.trans hu.1, hu.2.step hmove⟩
  obtain ⟨g', hext, hm, hinv⟩ := h.history (fun _ _ _ _ h => h)
    (fun _ _ _ h₁ h₂ v T c hc => h₂ v T c (h₁ v T c hc)) hkeep ⟨rfl, inv⟩
  exact ⟨hm, g', hext, hinv⟩

end ElectionInv

/-! ## Election safety -/

/-- At most one node ever leads a term : two leaders of one term, at any two moments of a
run, are the same node. -/
theorem election_safety {s t u : RaftCluster} (hs : s.Start) (ht : s.Reaches t)
    (hu : t.Reaches u) {a b : NodeId} (ha : a ∈ t.members) (hb : b ∈ u.members)
    (hla : (t.nodes a).role = .leader) (hlb : (u.nodes b).role = .leader)
    (hterm : (t.nodes a).currentTerm = (u.nodes b).currentTerm) : a = b := by
  obtain ⟨-, g, -, hinv⟩ := (ElectionInv.start hs).run ht
  obtain ⟨hm, g', hext, hinv'⟩ := hinv.run hu
  have hea := ((hinv.backed a ha).leader hla).mono hext
  have heb := (hinv'.backed b hb).leader hlb
  rw [hterm] at hea
  rw [hm] at heb
  exact elects_unique hea heb

/-- `a` wins term 1 with the vote of `b`, and still leads it after a heartbeat has been
answered. -/
theorem election_safety_three : ∃ t u : RaftCluster,
    (RaftCluster.init ["a", "b", "c"]).Reaches t ∧ t.Reaches u ∧
      ((t.nodes "a").role = .leader ∧ (t.nodes "a").currentTerm = 1) ∧
      ((u.nodes "a").role = .leader ∧ (u.nodes "a").currentTerm = 1) ∧
      ∀ b ∈ u.members, (u.nodes b).role = .leader → (u.nodes b).currentTerm = 1 → "a" = b := by
  have hs : (RaftCluster.init ["a", "b", "c"]).Start :=
    RaftCluster.start_init (by decide) (by decide)
  have hrun : (Runs.exec RaftCluster.step (fun _ _ => True) (RaftCluster.init ["a", "b", "c"])
      [.tick "a", .recv 0, .reply 0]).any (fun t =>
        decide ("a" ∈ t.members ∧ (t.nodes "a").role = .leader ∧ (t.nodes "a").currentTerm = 1) &&
        (Runs.exec RaftCluster.step (fun _ _ => True) t [.tick "a", .recv 1, .reply 1]).any
          fun u => decide ((u.nodes "a").role = .leader ∧ (u.nodes "a").currentTerm = 1))
      = true := by
    decide
  obtain ⟨t, ht, hp⟩ := Runs.exists_run_of_exec hrun
  simp only [Bool.and_eq_true, decide_eq_true_eq] at hp
  obtain ⟨⟨ha, hrole, hterm⟩, hu⟩ := hp
  obtain ⟨u, hu, hp⟩ := Runs.exists_run_of_exec hu
  exact ⟨t, u, ht, hu, ⟨hrole, hterm⟩, of_decide_eq_true hp, fun b hb hlb htb =>
    election_safety hs ht hu ha hb hrole hlb (hterm.trans htb.symm)⟩

end LoonyRedis
