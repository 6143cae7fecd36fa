import LoonyRedis.RaftElection

/-!
# Log matching

The history kept here is one log for each term (`TermLogs`) : the log of the leader of
that term, at its longest. It only grows, since a leader only appends and a term has one
leader. Every log of the cluster is tied to it : an entry of term `T` at index `i` comes
with everything the leader of `T` had up to `i` (`Anchored`). Two logs with an entry of
one term at one index are then both prefixes of one log.

An `AppendEntries` in flight carries the tail of a prefix of its term's log
(`Call.Carries`), or nothing and a `prev_log_term` of 0 when the leader's log had ended
before `prev_log_index`; no log holds term 0 past the sentinel, so the latter is refused.
-/

open Std (ExtTreeMap)

namespace LoonyRedis

/-- The longest log of the leader of each term, empty before there is one. -/
abbrev TermLogs := ℕ → List LogEntry

namespace TermLogs

variable (L : TermLogs)

/-- The record after looking at the log of every leader. -/
def observe (s : RaftCluster) : TermLogs := fun T =>
  match s.members.find? fun a => (s.nodes a).role = .leader ∧ (s.nodes a).currentTerm = T with
  | some a => (s.nodes a).log
  | none => L T

/-- Term logs only grow. -/
def Extends (L L' : TermLogs) : Prop := ∀ T, L T <+: L' T

/-- Every entry of `l` comes with what the leader of its term had up to there. -/
structure Anchored (l : List LogEntry) : Prop where
  head : l[0]? = some .sentinel
  entry : ∀ i e, l[i]? = some e → l.take (i + 1) <+: L e.term

variable {L} {L' : TermLogs} {l m : List LogEntry} {s : RaftCluster} {g : Grants}

/-- What is observed of a term is the log of its leader, or what was observed before. -/
theorem observe_cases (L : TermLogs) (s : RaftCluster) (T : ℕ) :
    (∃ a ∈ s.members, (s.nodes a).role = .leader ∧ (s.nodes a).currentTerm = T ∧
      L.observe s T = (s.nodes a).log) ∨ L.observe s T = L T := by
  unfold observe
  split
  · next a ha =>
    have hp := List.find?_some ha
    rw [decide_eq_true_eq] at hp
    exact Or.inl ⟨a, List.mem_of_find?_eq_some ha, hp.1, hp.2, rfl⟩
  · exact Or.inr rfl

/-- The log of a leader is what is observed of its term. -/
theorem observe_leader (inv : ElectionInv s g) {a : NodeId} (ha : a ∈ s.members)
    (hrole : (s.nodes a).role = .leader) :
    L.observe s (s.nodes a).currentTerm = (s.nodes a).log := by
  unfold observe
  split
  · next b hb =>
    have hp := List.find?_some hb
    rw [decide_eq_true_eq] at hp
    have hbm := List.mem_of_find?_eq_some hb
    have hb' := (inv.backed b hbm).leader hp.1
    rw [hp.2] at hb'
    rw [elects_unique hb' ((inv.backed a ha).leader hrole)]
  · next hnone =>
    have := List.find?_eq_none.mp hnone a ha
    simp [hrole] at this

/-- Extensions of the terms' logs compose. -/
theorem Extends.trans {L'' : TermLogs} (h : L.Extends L') (h' : L'.Extends L'') :
    L.Extends L'' :=
  fun T => (h T).trans (h' T)

namespace Anchored

/-- A log that is anchored stays anchored. -/
theorem mono (h : L.Anchored l) (hext : L.Extends L') : L'.Anchored l :=
  ⟨h.head, fun i e hi => (h.entry i e hi).trans (hext _)⟩

/-- An anchored log is not empty. -/
theorem ne_nil (h : L.Anchored l) : l ≠ [] := by
  rintro rfl
  simpa using h.head

/-- An anchored log begins with the sentinel. -/
theorem sentinel_isPrefix (h : L.Anchored l) : [LogEntry.sentinel] <+: l := by
  obtain ⟨y, m, rfl⟩ := List.exists_cons_of_ne_nil h.ne_nil
  obtain rfl : y = .sentinel := by simpa using h.head
  exact List.prefix_append _ m

theorem length_pos (h : L.Anchored l) : 0 < l.length := List.length_pos_iff.mpr h.ne_nil

/-- A prefix of an anchored log is anchored. -/
theorem of_isPrefix (h : L.Anchored l) (hpre : m <+: l) (hm : m ≠ []) : L.Anchored m := by
  have hget : ∀ i e, m[i]? = some e → i < m.length ∧ l[i]? = some e := by
    intro i e hi
    obtain ⟨hlt, rfl⟩ := List.getElem?_eq_some_iff.mp hi
    exact ⟨hlt, List.getElem?_eq_some_iff.mpr
      ⟨hlt.trans_le hpre.length_le, (hpre.getElem hlt).symm⟩⟩
  refine ⟨?_, fun i e hi => ?_⟩
  · obtain ⟨x, m, rfl⟩ := List.exists_cons_of_ne_nil hm
    have := (hget 0 x rfl).2
    rw [h.head] at this
    exact this.symm
  · obtain ⟨hlt, hl⟩ := hget i e hi
    have htake : m.take (i + 1) = l.take (i + 1) := by
      obtain ⟨u, rfl⟩ := hpre
      rw [List.take_append_of_le_length hlt]
    rw [htake]
    exact h.entry i e hl

/-- Where two logs have one term, they agree up to there. -/
theorem matching (hl : L.Anchored l) (hm : L.Anchored m) :
    Splice.Matching LogEntry.term l m := by
  intro i a b ha hb hterm
  have hla := hl.entry i a ha
  have hmb := hm.entry i b hb
  rw [← hterm] at hmb
  have hil := (List.getElem?_eq_some_iff.mp ha).1
  have him := (List.getElem?_eq_some_iff.mp hb).1
  refine List.IsPrefix.eq_of_length (List.prefix_of_prefix_length_le hla hmb ?_) ?_ <;>
    simp only [List.length_take] <;> omega

end Anchored

end TermLogs

/-! ## The log of one node -/

/-- An entry of `es`, which belong at `i` and after, meets an entry of another term. -/
def Conflicts (log : List LogEntry) (i : ℕ) (es : List LogEntry) : Prop :=
  ∃ j < es.length, (log[i + j]?.map LogEntry.term).isSome ∧
    log[i + j]?.map LogEntry.term ≠ es[j]?.map LogEntry.term

/-- The entries are compared one by one. -/
instance (log : List LogEntry) (i : ℕ) (es : List LogEntry) : Decidable (Conflicts log i es) :=
  inferInstanceAs (Decidable (∃ j < _, _))

namespace RaftNode

variable (n : RaftNode)

/-- An accepted `AppendEntries` and its reply. -/
structure Merges (term prev prevTerm : ℕ) (entries : List LogEntry) (commit : ℕ)
    (r : RaftNode × RaftRpc) : Prop where
  term_le : n.currentTerm ≤ term
  prevOk : n.prevLogOk prev prevTerm
  log_eq : r.1.log = Splice.splice LogEntry.term n.log (prev + 1) entries
  commit_eq : r.1.commitIndex =
    if commit > n.commitIndex then min commit r.1.lastLogIndex else n.commitIndex
  lastApplied_eq : r.1.lastApplied = n.lastApplied
  applied_eq : r.1.applied = n.applied
  pending_eq : r.1.pending = n.pending
  term_eq : r.1.currentTerm = term
  role_eq : r.1.role = .follower
  reply_eq : r.2 = .appendEntriesResp term true r.1.lastLogIndex

/-- An `AppendEntries` is refused and changes no data, or merged. -/
theorem handleAppendEntries_data {term : ℕ} {leaderId : NodeId} {prev prevTerm : ℕ}
    {entries : List LogEntry} {commit : ℕ} {r : RaftNode × RaftRpc}
    (h : n.handleAppendEntries term leaderId prev prevTerm entries commit = r) :
    (n.SameData r.1 ∧ ∃ T, r.2 = .appendEntriesResp T false 0) ∨
      n.Merges term prev prevTerm entries commit r := by
  subst h
  by_cases hlt : term < n.currentTerm
  · simp only [handleAppendEntries, if_pos hlt]
    exact Or.inl ⟨⟨rfl, rfl, rfl, rfl, rfl⟩, _, rfl⟩
  · have hterm : (n.stepDown term).currentTerm = term := by simp; omega
    simp only [handleAppendEntries, if_neg hlt]
    split
    · have hd := n.sameData_stepDown term
      exact Or.inl ⟨⟨hd.log_eq, hd.commit_eq, hd.lastApplied_eq, hd.applied_eq, hd.pending_eq⟩,
        _, rfl⟩
    · next hok =>
      have hok' : n.prevLogOk prev prevTerm = true := by
        rw [not_not] at hok
        simpa [prevLogOk, setLeader] using hok
      refine Or.inr ?_
      by_cases hc : commit > n.commitIndex
      · simp only [setLeader, stepDown_commitIndex, if_pos hc]
        exact ⟨by omega, hok', by simp, by simp [hc, lastLogIndex], by simp, by simp, by simp,
          hterm, rfl, by simp only [hterm, lastLogIndex]⟩
      · simp only [setLeader, stepDown_commitIndex, if_neg hc]
        exact ⟨by omega, hok', by simp, by simp [hc], by simp, by simp, by simp,
          hterm, rfl, by simp only [hterm, lastLogIndex]⟩

/-- Committing leaves the log alone. -/
theorem log_tryAdvanceCommit : n.tryAdvanceCommit.log = n.log := by
  unfold tryAdvanceCommit
  dsimp only
  split <;> rfl

/-- An append response leaves the log alone. -/
theorem log_handleAppendResponse (peer : NodeId) (r : RaftRpc) :
    (n.handleAppendResponse peer r).log = n.log := by
  cases r with
  | appendEntriesResp term success m =>
    unfold handleAppendResponse
    dsimp only
    split
    · simp
    · split
      · rfl
      · split
        · exact log_tryAdvanceCommit _
        · rfl
  | _ => rfl

/-- A vote response leaves the log alone. -/
theorem log_handleVoteResponse (r : RaftRpc) : (n.handleVoteResponse r).log = n.log := by
  rcases n.handleVoteResponse_vote r with ⟨T, h⟩ | h | ⟨-, -, h | ⟨-, h⟩⟩ <;> rw [h]
  · simp
  · rfl

/-- The loop of `become_leader` over its peers. -/
theorem getElem?_foldl_insert (v : ℕ) (q : NodeId) :
    ∀ (peers : List NodeId) (m : ExtTreeMap NodeId ℕ compare),
      (peers.foldl (fun m p => m.insert p v) m)[q]? = if q ∈ peers then some v else m[q]?
  | [], m => by simp
  | p :: peers, m => by
    rw [List.foldl_cons, getElem?_foldl_insert v q peers, ExtTreeMap.getElem?_insert]
    by_cases hq : q ∈ peers
    · simp [hq]
    · by_cases hp : p = q
      · subst hp
        simp
      · have hqp : q ≠ p := fun h => hp h.symm
        simp [hq, hp, hqp]

/-- No `next_index` points at the sentinel. -/
def NextOk : Prop := ∀ (p : NodeId) (k : ℕ), n.nextIndex[p]? = some k → 1 ≤ k

variable {n}

/-- The next index of a peer may be set to any index above the sentinel. -/
theorem NextOk.insert (h : n.NextOk) {peer : NodeId} {k : ℕ} (hk : 1 ≤ k) :
    ∀ (p : NodeId) (j : ℕ), (n.nextIndex.insert peer k)[p]? = some j → 1 ≤ j := by
  intro p j hj
  rw [ExtTreeMap.getElem?_insert] at hj
  split at hj
  · exact Option.some.inj hj ▸ hk
  · exact h p j hj

/-- The next index of any peer is above the sentinel. -/
theorem NextOk.getD (h : n.NextOk) (p : NodeId) : 1 ≤ n.nextIndex[p]?.getD 1 := by
  cases hp : n.nextIndex[p]? with
  | none => exact le_refl 1
  | some k => exact h p k hp

/-- An append response keeps the next indexes above the sentinel. -/
theorem NextOk.handleAppendResponse (h : n.NextOk) (peer : NodeId) (r : RaftRpc) :
    (n.handleAppendResponse peer r).NextOk := by
  cases r with
  | appendEntriesResp term success m =>
    unfold RaftNode.handleAppendResponse
    dsimp only
    split
    · unfold stepDown
      split <;> exact h
    · split
      · exact h
      · split
        · unfold tryAdvanceCommit
          dsimp only
          split <;> exact h.insert (Nat.le_add_left 1 m)
        · refine h.insert ?_
          have := h.getD peer
          split <;> omega
  | _ => exact h

/-- A vote response keeps the next indexes above the sentinel. -/
theorem NextOk.handleVoteResponse (h : n.NextOk) (r : RaftRpc) :
    (n.handleVoteResponse r).NextOk := by
  rcases n.handleVoteResponse_vote r with ⟨T, hn⟩ | hn | ⟨-, -, hn | ⟨-, hn⟩⟩ <;> rw [hn]
  · unfold stepDown
    split <;> exact h
  · exact h
  · exact h
  · intro p k hk
    simp only [becomeLeader, getElem?_foldl_insert] at hk
    split at hk
    · exact Option.some.inj hk ▸ Nat.le_add_left 1 _
    · exact h p k hk

end RaftNode

/-! ## What a step does to logs and roles -/

namespace RaftCluster.NodeMove

variable {s : RaftCluster} {b : NodeId} {e : Event} {n : RaftNode}

/-- A log stays, is appended to by its leader, or takes in an `AppendEntries`. -/
theorem log_cases (h : s.NodeMove b e n) :
    n.log = (s.nodes b).log ∨
    (∃ command, (s.nodes b).role = .leader ∧ n.role = .leader ∧
      n.currentTerm = (s.nodes b).currentTerm ∧
      n.log = (s.nodes b).log ++ [⟨(s.nodes b).currentTerm, command⟩]) ∨
    ∃ k c term leaderId prev prevTerm entries commit r, e = .recv k ∧ s.calls[k]? = some c ∧
      c.callee = b ∧ c.request = .appendEntries term leaderId prev prevTerm entries commit ∧
      n = r.1 ∧ (s.nodes b).Merges term prev prevTerm entries commit r := by
  cases h with
  | stay | elect => exact Or.inl rfl
  | grant => exact Or.inl (RaftNode.handleRequestVote_spec _ rfl).2.1.log_eq
  | append hk hb hreply hidle hreq =>
    rcases (s.nodes b).handleAppendEntries_data rfl with ⟨hsame, -⟩ | hmerge
    · exact Or.inl hsame.log_eq
    · exact Or.inr (Or.inr ⟨_, _, _, _, _, _, _, _, _, rfl, hk, hb, hreq, rfl, hmerge⟩)
  | countVote => exact Or.inl (RaftNode.log_handleVoteResponse _ _)
  | countAppend => exact Or.inl (RaftNode.log_handleAppendResponse _ _ _)
  | propose hb hrole => exact Or.inr (Or.inl ⟨_, hrole, hrole, rfl, rfl⟩)
  | apply hlt hr =>
    obtain ⟨entry, -, rfl⟩ := Option.map_eq_some_iff.mp hr
    exact Or.inl rfl

/-- A leader led before the step, or was a candidate of its term with its present log. -/
theorem leader_cases (h : s.NodeMove b e n) (hn : n.role = .leader) :
    n.currentTerm = (s.nodes b).currentTerm ∧
      ((s.nodes b).role = .leader ∨
        ((s.nodes b).role = .candidate ∧ n.log = (s.nodes b).log ∧ ∃ k, e = .reply k)) := by
  cases h with
  | stay => exact ⟨rfl, Or.inl hn⟩
  | elect => cases hn
  | grant =>
    rcases (RaftNode.handleRequestVote_spec (s.nodes b) rfl).2.2.1 with hf | ⟨hterm, hrole, -⟩
    · rw [hf] at hn
      cases hn
    · exact ⟨hterm, Or.inl (hrole ▸ hn)⟩
  | append =>
    rcases RaftNode.handleAppendEntries_vote (s.nodes b) rfl with ⟨-, hsame⟩ | ⟨-, -, hf, -⟩
    · rw [hsame] at hn ⊢
      exact ⟨rfl, Or.inl hn⟩
    · rw [hf] at hn
      cases hn
  | @countVote k c r =>
    rcases (s.nodes b).handleVoteResponse_vote r with ⟨T, hn'⟩ | hn' | ⟨-, hc, hn' | ⟨-, hn'⟩⟩ <;>
      rw [hn'] at hn ⊢
    · cases hn
    · exact ⟨rfl, Or.inl hn⟩
    · exact ⟨rfl, Or.inl hn⟩
    · exact ⟨rfl, Or.inr ⟨hc, rfl, k, rfl⟩⟩
  | @countAppend k c r =>
    rcases (s.nodes b).handleAppendResponse_vote c.callee r with ⟨T, hn'⟩ | hsame
    · rw [hn'] at hn
      cases hn
    · exact ⟨hsame.term_eq, Or.inl (hsame.role_eq ▸ hn)⟩
  | propose hb hrole => exact ⟨rfl, Or.inl hrole⟩
  | apply hlt hr =>
    obtain ⟨entry, -, rfl⟩ := Option.map_eq_some_iff.mp hr
    exact ⟨rfl, Or.inl hn⟩

/-- A candidate was one of the same term before the step, or has just entered a new one;
its log is what it was. -/
theorem candidate_cases (h : s.NodeMove b e n) (hn : n.role = .candidate) :
    n.log = (s.nodes b).log ∧
      ((s.nodes b).role = .candidate ∧ n.currentTerm = (s.nodes b).currentTerm ∨
        n.currentTerm = (s.nodes b).currentTerm + 1 ∧ e = .tick b) := by
  cases h with
  | stay => exact ⟨rfl, Or.inl ⟨hn, rfl⟩⟩
  | elect => exact ⟨rfl, Or.inr ⟨rfl, rfl⟩⟩
  | grant =>
    obtain ⟨-, hdata, hf | ⟨hterm, hrole, -⟩, -⟩ :=
      RaftNode.handleRequestVote_spec (s.nodes b) rfl
    · rw [hf] at hn
      cases hn
    · exact ⟨hdata.log_eq, Or.inl ⟨hrole ▸ hn, hterm⟩⟩
  | append =>
    rcases RaftNode.handleAppendEntries_vote (s.nodes b) rfl with ⟨-, hsame⟩ | ⟨-, -, hf, -⟩
    · rw [hsame] at hn ⊢
      exact ⟨rfl, Or.inl ⟨hn, rfl⟩⟩
    · rw [hf] at hn
      cases hn
  | @countVote k c r =>
    rcases (s.nodes b).handleVoteResponse_vote r with ⟨T, hn'⟩ | hn' | ⟨-, hc, hn' | ⟨-, hn'⟩⟩ <;>
      rw [hn'] at hn ⊢
    · cases hn
    · exact ⟨rfl, Or.inl ⟨hn, rfl⟩⟩
    · exact ⟨rfl, Or.inl ⟨hn, rfl⟩⟩
    · cases hn
  | @countAppend k c r =>
    rcases (s.nodes b).handleAppendResponse_vote c.callee r with ⟨T, hn'⟩ | hsame
    · rw [hn'] at hn
      cases hn
    · exact ⟨RaftNode.log_handleAppendResponse _ _ _,
        Or.inl ⟨hsame.role_eq ▸ hn, hsame.term_eq⟩⟩
  | propose hb hrole => exact absurd (hrole.symm.trans hn) (by simp)
  | apply hlt hr =>
    obtain ⟨entry, -, rfl⟩ := Option.map_eq_some_iff.mp hr
    exact ⟨rfl, Or.inl ⟨hn, rfl⟩⟩

/-- A step keeps the next indexes above the sentinel. -/
theorem nextOk (h : s.NodeMove b e n) (hok : (s.nodes b).NextOk) : n.NextOk := by
  cases h with
  | stay | elect | propose => exact hok
  | grant =>
    unfold RaftNode.handleRequestVote RaftNode.stepDown
    dsimp only
    split <;> split <;> exact hok
  | append =>
    unfold RaftNode.handleAppendEntries RaftNode.stepDown
    dsimp only
    split
    · exact hok
    · split <;> split <;> (try split) <;> exact hok
  | countVote => exact hok.handleVoteResponse _
  | countAppend => exact hok.handleAppendResponse _ _
  | apply hlt hr =>
    obtain ⟨entry, -, rfl⟩ := Option.map_eq_some_iff.mp hr
    exact hok

end RaftCluster.NodeMove

/-! ## The invariant -/

/-- The tail of `l` after `prev`, or the empty message of a leader whose log ended before
`prev`. -/
def Carried (l : List LogEntry) (prev prevTerm : ℕ) (entries : List LogEntry) : Prop :=
  (l[prev]?.map LogEntry.term = some prevTerm ∧ entries = l.drop (prev + 1)) ∨
    (l.length ≤ prev ∧ prevTerm = 0 ∧ entries = [])

/-- An `AppendEntries` carries a piece of the log of its term. -/
def Call.Carries (L : TermLogs) (c : Call) : Prop :=
  ∀ term leaderId prev prevTerm entries commit,
    c.request = .appendEntries term leaderId prev prevTerm entries commit →
      ∃ l, l ≠ [] ∧ l <+: L term ∧ Carried l prev prevTerm entries

/-- Each log is made of prefixes of the logs of the leaders. -/
structure LogInv (s : RaftCluster) (g : Grants) (L : TermLogs) : Prop where
  zero : L 0 = [.sentinel]
  term_pos : ∀ a ∈ s.members, (s.nodes a).role ≠ .follower → 1 ≤ (s.nodes a).currentTerm
  leader : ∀ a ∈ s.members, (s.nodes a).role = .leader →
    L (s.nodes a).currentTerm = (s.nodes a).log
  nodes : ∀ a ∈ s.members, L.Anchored (s.nodes a).log
  terms : ∀ T, L T ≠ [] → L.Anchored (L T)
  won : ∀ T, 1 ≤ T → L T ≠ [] → ∃ a ∈ s.members, g.Elects s.members a T ∧
    (T < (s.nodes a).currentTerm ∨
      T = (s.nodes a).currentTerm ∧ (s.nodes a).role ≠ .candidate)
  next : ∀ a ∈ s.members, (s.nodes a).NextOk
  calls : ∀ c ∈ s.calls, c.Carries L

/-- A call carries its entries also in longer logs. -/
theorem Call.Carries.mono {L L' : TermLogs} {c : Call} (h : c.Carries L)
    (hext : L.Extends L') : c.Carries L' := by
  intro term leaderId prev prevTerm entries commit hreq
  obtain ⟨l, hl, hpre, hc⟩ := h term leaderId prev prevTerm entries commit hreq
  exact ⟨l, hl, hpre.trans (hext term), hc⟩

/-- What a leader sends is a piece of its log. -/
theorem RaftNode.carried_sendAppendEntriesTo {n : RaftNode} (hok : n.NextOk) {peer : NodeId}
    {term : ℕ} {leaderId : NodeId} {prev prevTerm : ℕ} {entries : List LogEntry} {commit : ℕ}
    (h : n.sendAppendEntriesTo peer =
      .appendEntries term leaderId prev prevTerm entries commit) :
    term = n.currentTerm ∧ commit = n.commitIndex ∧ Carried n.log prev prevTerm entries := by
  simp only [sendAppendEntriesTo, RaftRpc.appendEntries.injEq] at h
  obtain ⟨rfl, -, rfl, rfl, rfl, rfl⟩ := h
  have hnext := hok.getD peer
  generalize n.nextIndex[peer]?.getD 1 = next at hnext ⊢
  refine ⟨rfl, rfl, ?_⟩
  have hprev : next - 1 + 1 = next := by omega
  by_cases hlt : next - 1 < n.log.length
  · refine Or.inl ⟨?_, ?_⟩
    · simp [logTermAt, hlt]
    · rw [hprev]
      split
      · rfl
      · rw [List.drop_of_length_le (by omega)]
  · refine Or.inr ⟨by omega, ?_, if_neg (by omega)⟩
    simp [logTermAt, List.getElem?_eq_none (not_lt.mp hlt)]

namespace LogInv

variable {s t : RaftCluster} {g : Grants} {L : TermLogs} {e : Event}

/-- No log holds an entry of term 0 past the sentinel. -/
theorem eq_zero_of_term_zero (inv : LogInv s g L) {l : List LogEntry} (hl : L.Anchored l)
    {i : ℕ} {x : LogEntry} (hi : l[i]? = some x) (hx : x.term = 0) : i = 0 := by
  have hpre := hl.entry i x hi
  rw [hx, inv.zero] at hpre
  have hlen := hpre.length_le
  have hlt := (List.getElem?_eq_some_iff.mp hi).1
  rw [List.length_take, List.length_singleton] at hlen
  omega

section merge

variable (inv : LogInv s g L) {b : NodeId} (hb : b ∈ s.members) {l : List LogEntry}
  {term prev prevTerm : ℕ} {entries : List LogEntry} {commit : ℕ} {r : RaftNode × RaftRpc}
  (hl : l ≠ []) (hpre : l <+: L term) (hc : Carried l prev prevTerm entries)
  (hm : (s.nodes b).Merges term prev prevTerm entries commit r)
include inv hb hl hpre hc hm

/-- A merged request carries a tail of the sender's log, and up to `prev` the two logs
agree : by the sentinel, or by the term found there. -/
theorem tail_of_merges : entries = l.drop (prev + 1) ∧ prev < l.length ∧
    prev < (s.nodes b).log.length ∧ (s.nodes b).log.take (prev + 1) = l.take (prev + 1) := by
  have hL : L term ≠ [] := fun h => hl (List.prefix_nil.mp (h ▸ hpre))
  have hla := (inv.terms term hL).of_isPrefix hpre hl
  have hba := inv.nodes b hb
  have hmatch := hba.matching hla
  have hok := of_decide_eq_true hm.prevOk
  rcases hc with ⟨hterm, rfl⟩ | ⟨hlen, rfl, rfl⟩
  · obtain ⟨x, hx, hxt⟩ := Option.map_eq_some_iff.mp hterm
    refine ⟨rfl, (List.getElem?_eq_some_iff.mp hx).1, ?_⟩
    rcases hok with rfl | hprev
    · exact ⟨hba.length_pos, hmatch 0 _ _ hba.head hla.head rfl⟩
    · obtain ⟨y, hy, hyt⟩ := Option.map_eq_some_iff.mp hprev
      exact ⟨(List.getElem?_eq_some_iff.mp hy).1, hmatch prev y x hy hx (hyt.trans hxt.symm)⟩
  · exfalso
    have hpos := hla.length_pos
    rcases hok with rfl | hprev
    · omega
    · obtain ⟨y, hy, hyt⟩ := Option.map_eq_some_iff.mp hprev
      have := inv.eq_zero_of_term_zero hba hy hyt
      omega

/-- A node that merges an `AppendEntries` keeps its log if it extends the sender's, and
has the sender's otherwise. -/
theorem merged :
    (l <+: (s.nodes b).log ∧ r.1.log = (s.nodes b).log) ∨
      (¬ l <+: (s.nodes b).log ∧ r.1.log = l) := by
  obtain ⟨rfl, hlt, hlt', htake⟩ := inv.tail_of_merges hb hl hpre hc hm
  have hL : L term ≠ [] := fun h => hl (List.prefix_nil.mp (h ▸ hpre))
  have hmatch := (inv.nodes b hb).matching ((inv.terms term hL).of_isPrefix hpre hl)
  rw [hm.log_eq]
  exact Splice.splice_drop hmatch (l.length - (prev + 1)) (prev + 1) (by omega) hlt' htake

end merge

section step

variable (einv : ElectionInv s g) (inv : LogInv s g L) (h : s.Move e t)
include einv inv h

/-- The record of term logs grows along a step. -/
theorem extends_observe : L.Extends (L.observe t) := by
  intro T
  rcases L.observe_cases t T with ⟨a, ha, hrole, rfl, hobs⟩ | hobs
  · rw [hobs]
    have hm := h.members_eq
    have has : a ∈ s.members := hm ▸ ha
    obtain ⟨hterm, hrole' | ⟨hcand, -, -⟩⟩ := (h.node a).leader_cases hrole
    · rw [hterm, inv.leader a has hrole']
      rcases (h.node a).log_cases with hlog | ⟨command, -, -, -, hlog⟩ |
        ⟨_, _, _, _, _, _, _, _, r, -, -, -, -, hn, hmerge⟩
      · rw [hlog]
      · rw [hlog]
        exact List.prefix_append _ _
      · rw [hn, hmerge.role_eq] at hrole
        cases hrole
    · -- a new leader : nobody has led its term before
      by_cases hT : L (t.nodes a).currentTerm = []
      · rw [hT]
        exact List.nil_prefix
      · exfalso
        have hpos := inv.term_pos a has (by simp [hcand])
        obtain ⟨b, hb, helect, hlater⟩ := inv.won _ (hterm ▸ hpos) hT
        have heinv := einv.step h
        have hb' := helect.mono (einv.extends_observe hm h.voteLe)
        have ha' := (heinv.backed a ha).leader hrole
        rw [hm] at ha'
        obtain rfl := elects_unique hb' ha'
        rw [hterm] at hlater
        rcases hlater with hlt | ⟨-, hne⟩
        · omega
        · exact hne hcand
  · rw [hobs]

/-- Logs stay anchored. -/
theorem anchored_step {b : NodeId} (hb : b ∈ s.members) :
    (L.observe t).Anchored (t.nodes b).log := by
  have hext := inv.extends_observe einv h
  have hbt : b ∈ t.members := h.members_eq.symm ▸ hb
  have hold := (inv.nodes b hb).mono hext
  rcases (h.node b).log_cases with hlog | ⟨command, -, hrole, hterm, hlog⟩ |
    ⟨_, c, term, leaderId, prev, prevTerm, entries, commit, r, -, hk, -, hreq, hn, hmerge⟩
  · rwa [hlog]
  · have hL := TermLogs.observe_leader (L := L) (einv.step h) hbt hrole
    rw [hterm] at hL
    refine ⟨?_, fun i x hi => ?_⟩
    · rw [hlog, List.getElem?_append_left hold.length_pos]
      exact hold.head
    · by_cases hlt : i < (s.nodes b).log.length
      · rw [hlog, List.getElem?_append_left hlt] at hi
        rw [hlog, List.take_append_of_le_length hlt]
        exact hold.entry i x hi
      · have hlen := (List.getElem?_eq_some_iff.mp hi).1
        rw [hlog, List.length_append, List.length_singleton] at hlen
        obtain rfl : i = (s.nodes b).log.length := by omega
        rw [hlog, List.getElem?_concat_length] at hi
        obtain rfl := Option.some.inj hi
        rw [hL]
        exact List.take_prefix _ _
  · obtain ⟨l, hl, hpre, hc⟩ :=
      inv.calls c (List.mem_of_getElem? hk) _ _ _ _ _ _ hreq
    rw [hn]
    rcases inv.merged hb hl hpre hc hmerge with ⟨-, hlog⟩ | ⟨-, hlog⟩ <;> rw [hlog]
    · exact hold
    · refine TermLogs.Anchored.of_isPrefix ?_ hpre hl |>.mono hext
      exact inv.terms term fun h0 => hl (List.prefix_nil.mp (h0 ▸ hpre))

/-- A step keeps the logs matching. -/
theorem step : LogInv t (g.observe t) (L.observe t) := by
  have hm := h.members_eq
  have hext := inv.extends_observe einv h
  have heinv := einv.step h
  have hgext := einv.extends_observe hm h.voteLe
  have hpos : ∀ a ∈ t.members, (t.nodes a).role ≠ .follower → 1 ≤ (t.nodes a).currentTerm := by
    intro a ha hrole
    have has : a ∈ s.members := hm ▸ ha
    cases hr : (t.nodes a).role with
    | follower => exact absurd hr hrole
    | candidate =>
      obtain ⟨-, ⟨hc, hterm⟩ | ⟨hterm, -⟩⟩ := (h.node a).candidate_cases hr
      · exact hterm ▸ inv.term_pos a has (by simp [hc])
      · omega
    | leader =>
      obtain ⟨hterm, hc | ⟨hc, -⟩⟩ := (h.node a).leader_cases hr
      · exact hterm ▸ inv.term_pos a has (by simp [hc])
      · exact hterm ▸ inv.term_pos a has (by simp [hc])
  have hanch : ∀ a ∈ t.members, (L.observe t).Anchored (t.nodes a).log :=
    fun a ha => inv.anchored_step einv h (hm ▸ ha)
  constructor
  · rcases L.observe_cases t 0 with ⟨a, ha, hrole, hterm, -⟩ | hobs
    · have := hpos a ha (by simp [hrole])
      omega
    · rw [hobs, inv.zero]
  · exact hpos
  · exact fun a ha hrole => TermLogs.observe_leader heinv ha hrole
  · exact hanch
  · intro T hT
    rcases L.observe_cases t T with ⟨a, ha, -, -, hobs⟩ | hobs
    · rw [hobs]
      exact hanch a ha
    · rw [hobs] at hT ⊢
      exact (inv.terms T hT).mono hext
  · intro T hT hne
    rcases L.observe_cases t T with ⟨a, ha, hrole, rfl, -⟩ | hobs
    · exact ⟨a, ha, (heinv.backed a ha).leader hrole, Or.inr ⟨rfl, by simp [hrole]⟩⟩
    · rw [hobs] at hne
      obtain ⟨a, ha, helect, hlater⟩ := inv.won T hT hne
      refine ⟨a, hm ▸ ha, hm ▸ helect.mono hgext, ?_⟩
      have hle := (h.voteLe a).term_le
      rcases hlater with hlt | ⟨heq, hne⟩
      · exact Or.inl (by omega)
      · by_cases hc : (t.nodes a).role = .candidate
        · rcases ((h.node a).candidate_cases hc).2 with ⟨hc', -⟩ | ⟨hterm, -⟩
          · exact absurd hc' hne
          · exact Or.inl (by omega)
        · rcases hle.lt_or_eq with hlt | heq'
          · exact Or.inl (by omega)
          · exact Or.inr ⟨heq.trans heq', hc⟩
  · exact fun a ha => (h.node a).nextOk (inv.next a (hm ▸ ha))
  · intro c hc
    cases h.call hc with
    | old hc => exact (inv.calls c hc).mono hext
    | @append _ a p ha hrole hp =>
      intro term leaderId prev prevTerm entries commit hreq
      have hat : a ∈ t.members := hm.symm ▸ ha
      obtain ⟨rfl, -, hcar⟩ := RaftNode.carried_sendAppendEntriesTo
        ((h.node a).nextOk (inv.next a ha)) hreq
      refine ⟨(t.nodes a).log, (hanch a hat).ne_nil, ?_, hcar⟩
      rw [TermLogs.observe_leader heinv hat hrole]
    | request => exact fun _ _ _ _ _ _ hreq => by cases hreq
    | granted hk => exact (inv.calls _ (List.mem_of_getElem? hk)).mono hext
    | appended hk => exact (inv.calls _ (List.mem_of_getElem? hk)).mono hext

end step

/-- At the start only term 0 has a log, the sentinel. -/
theorem start (h : s.Start) :
    LogInv s (fun _ _ => none) fun T => if T = 0 then [.sentinel] else [] := by
  have hnode : ∀ a ∈ s.members, (s.nodes a).role = .follower ∧
      (s.nodes a).log = [.sentinel] ∧ (s.nodes a).NextOk := by
    intro a ha
    obtain ⟨peers, -, -, hn⟩ := h.started a ha
    rw [hn]
    exact ⟨rfl, rfl, fun p k hk => by simp [startRaft] at hk⟩
  have hanch : TermLogs.Anchored (fun T => if T = 0 then [.sentinel] else [])
      [LogEntry.sentinel] := by
    refine ⟨rfl, fun i x hi => ?_⟩
    cases i with
    | zero =>
      obtain rfl : LogEntry.sentinel = x := by simpa using hi
      simp [LogEntry.sentinel]
    | succ i => simp at hi
  constructor
  · rfl
  · intro a ha hrole
    exact absurd (hnode a ha).1 hrole
  · intro a ha hrole
    rw [(hnode a ha).1] at hrole
    cases hrole
  · intro a ha
    rw [(hnode a ha).2.1]
    exact hanch
  · intro T hT
    by_cases h0 : T = 0
    · simpa [h0] using hanch
    · simp [h0] at hT
  · intro T hT hne
    exact absurd (if_neg (by omega)) hne
  · exact fun a ha => (hnode a ha).2.2
  · simp [h.calls]

/-- Both invariants hold in every state reached. -/
theorem run (h : s.Start) (hrun : s.Reaches t) :
    ∃ g L, ElectionInv t g ∧ LogInv t g L := by
  refine hrun.invariant (I := fun u => ∃ g L, ElectionInv u g ∧ LogInv u g L)
    (fun u e v hu _ hstep => ?_) ⟨_, _, .start h, .start h⟩
  obtain ⟨g, L, heinv, hinv⟩ := hu
  have hmove := RaftCluster.move_of_step hstep
  exact ⟨_, _, heinv.step hmove, hinv.step heinv hmove⟩

end LogInv

/-! ## Log matching -/

/-- Two logs that hold entries of one term at one index are equal up to that index. -/
theorem log_matching {s t : RaftCluster} (hs : s.Start) (ht : s.Reaches t) {a b : NodeId}
    (ha : a ∈ t.members) (hb : b ∈ t.members) {i : ℕ} {x y : LogEntry}
    (hx : (t.nodes a).log[i]? = some x) (hy : (t.nodes b).log[i]? = some y)
    (hterm : x.term = y.term) {j : ℕ} (hj : j ≤ i) :
    (t.nodes a).log[j]? = (t.nodes b).log[j]? := by
  obtain ⟨g, L, -, hinv⟩ := LogInv.run hs ht
  have htake := (hinv.nodes a ha).matching (hinv.nodes b hb) i x y hx hy hterm
  rw [← List.getElem?_take_of_lt (Nat.lt_succ_of_le hj), htake,
    List.getElem?_take_of_lt (Nat.lt_succ_of_le hj)]

/-- A leader of term 1 and a follower that has merged its first entry. -/
theorem log_matching_two : ∃ t : RaftCluster, (RaftCluster.init ["a", "b"]).Reaches t ∧
    (t.nodes "a").log[1]? = some ⟨1, [120]⟩ ∧ (t.nodes "b").log[1]? = some ⟨1, [120]⟩ ∧
      (t.nodes "a").log[0]? = (t.nodes "b").log[0]? := by
  have hs : (RaftCluster.init ["a", "b"]).Start :=
    RaftCluster.start_init (by decide) (by decide)
  have hrun : (Runs.exec RaftCluster.step (fun _ _ => True) (RaftCluster.init ["a", "b"])
      [.tick "a", .recv 0, .reply 0, .propose "a" [120], .recv 0]).any (fun t =>
        decide ("a" ∈ t.members ∧ "b" ∈ t.members ∧ (t.nodes "a").log[1]? = some ⟨1, [120]⟩ ∧
          (t.nodes "b").log[1]? = some ⟨1, [120]⟩)) = true := by
    decide
  obtain ⟨t, ht, hp⟩ := Runs.exists_run_of_exec hrun
  obtain ⟨ha, hb, hx, hy⟩ := of_decide_eq_true hp
  exact ⟨t, ht, hx, hy, log_matching hs ht ha hb hx hy rfl (Nat.zero_le 1)⟩

end LoonyRedis
