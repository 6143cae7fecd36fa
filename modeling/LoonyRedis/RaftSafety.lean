import LoonyRedis.RaftAcks

/-!
# Leader completeness and state machine safety

An index is settled once a majority has acknowledged it in the term of its entry
(`Committed`). In a run of sound steps the leaders of all later terms have the log up to
a settled index (`leader_complete`), every commit index is covered by a settled one
(`CommitInv`), and what is applied is the log up to there.

Both safety properties fail in general, since a follower may report an index it does not
share with the leader. The two runs at the end of this file show it.
-/

set_option linter.unusedSectionVars false

open Std (ExtTreeMap)

namespace LoonyRedis

/-- A majority acknowledged index `i` in term `T`, and the entry there is of that term. -/
def Committed (members : List NodeId) (L : TermLogs) (A : Acks) (T i : ℕ) : Prop :=
  (L T)[i]?.map LogEntry.term = some T ∧
    ∃ Q, Quorum.IsQuorum members Q ∧ ∀ p ∈ Q, A p T i

/-- `P` is no more than the sentinel, or a part of what some term up to `T` settled. -/
def Settled (members : List NodeId) (L : TermLogs) (A : Acks) (P : List LogEntry) (T : ℕ) :
    Prop :=
  P <+: [.sentinel] ∨ ∃ T₀ ≤ T, ∃ i, Committed members L A T₀ i ∧ P <+: (L T₀).take (i + 1)

section mono

variable {members : List NodeId} {L L' : TermLogs} {A A' : Acks}

/-- A committed entry is in the log of its term. -/
theorem Committed.lt_length {T i : ℕ} (h : Committed members L A T i) : i < (L T).length := by
  obtain ⟨x, hx, -⟩ := Option.map_eq_some_iff.mp h.1
  exact (List.getElem?_eq_some_iff.mp hx).1

variable (hL : L.Extends L') (hA : A.Extends A')
include hL hA

/-- A committed entry stays committed. -/
theorem Committed.mono {T i : ℕ} (h : Committed members L A T i) :
    Committed members L' A' T i := by
  have hlt := h.lt_length
  obtain ⟨hterm, Q, hQ, hacks⟩ := h
  refine ⟨?_, Q, hQ, fun p hp => hA p T i (hacks p hp)⟩
  obtain ⟨u, hu⟩ := hL T
  rw [← hu, List.getElem?_append_left hlt, hterm]

/-- A settled prefix stays settled in later terms. -/
theorem Settled.mono {P : List LogEntry} {T T' : ℕ} (hle : T ≤ T')
    (h : Settled members L A P T) : Settled members L' A' P T' := by
  refine h.imp_right ?_
  rintro ⟨T₀, hT₀, i, hc, hpre⟩
  refine ⟨T₀, hT₀.trans hle, i, hc.mono hL hA, hpre.trans ?_⟩
  obtain ⟨u, hu⟩ := hL T₀
  rw [← hu, List.take_append_of_le_length (hc.lt_length)]

end mono

/-- A prefix of a settled prefix is settled. -/
theorem Settled.of_isPrefix {members : List NodeId} {L : TermLogs} {A : Acks}
    {P P' : List LogEntry} {T : ℕ} (hpre : P' <+: P) (h : Settled members L A P T) :
    Settled members L A P' T := by
  refine h.imp (fun hP => hpre.trans hP) ?_
  rintro ⟨T₀, hT₀, i, hc, hP⟩
  exact ⟨T₀, hT₀, i, hc, hpre.trans hP⟩

/-! ## Leader completeness -/

section complete

variable {s : RaftCluster} {g : Grants} {L : TermLogs} {B : Ballots} {A : Acks}
  (linv : LogInv s g L) (binv : BallotInv s g L B) (ainv : AckInv s L B A)
include linv binv ainv

/-- The last entry of a log that is tied to the term logs. -/
theorem exists_last {l : List LogEntry} (hl : L.Anchored l) :
    ∃ y ∈ l, y.term = lastTerm l ∧ l <+: L (lastTerm l) ∧
      ∀ x ∈ l, x.term ≤ lastTerm l := by
  have hpos := hl.length_pos
  have hlt : l.length - 1 < l.length := by omega
  have hlast : lastTerm l = l[l.length - 1].term := by
    rw [lastTerm, List.getLast?_eq_getElem?, List.getElem?_eq_getElem hlt]
    rfl
  have hpre := hl.entry _ _ (List.getElem?_eq_getElem hlt)
  rw [Nat.sub_add_cancel hpos, List.take_length, ← hlast] at hpre
  exact ⟨_, List.getElem_mem hlt, hlast.symm, hpre,
    fun x hx => binv.terms _ x (hpre.subset hx)⟩

/-- The leaders of all later terms have the log up to a settled index. Induction on the
term : a voter of the new leader acknowledged the index, no leader in between overruled
it, and the new leader's log is at least as up to date as that voter's. -/
theorem leader_complete {T i : ℕ} (hc : Committed s.members L A T i) :
    ∀ T', T < T' → L T' ≠ [] → (L T).take (i + 1) <+: L T' := by
  obtain ⟨hterm, Q, hQ, hacks⟩ := hc
  obtain ⟨x, hx, hxT⟩ := Option.map_eq_some_iff.mp hterm
  have hi := (List.getElem?_eq_some_iff.mp hx).1
  intro T'
  induction T' using Nat.strong_induction_on with
  | _ T' ih =>
    intro hlt hne
    obtain ⟨C, V, hC, hpre, hCT, hV, hballots⟩ := binv.winner T' (by omega) hne
    obtain ⟨v, hvQ, hvV⟩ := hQ.meet hV
    obtain ⟨l, hl, hup⟩ := hballots v hvV
    have hX : (L T).take (i + 1) <+: l := by
      rcases ainv.ballot v T i (hacks v hvQ) T' l hlt hl with h | ⟨T'', h1, h2, h3⟩
      · exact h
      · exact absurd (ih T'' h2 h1 h3.ne_nil) h3.1
    refine List.IsPrefix.trans ?_ hpre
    obtain ⟨z, hz, hzt, hCz, -⟩ :=
      exists_last linv binv ainv ((linv.terms T' hne).of_isPrefix hpre hC)
    obtain ⟨-, -, -, hly, hle⟩ := exists_last linv binv ainv (binv.ballots v T' l hl).2.2
    have hxl : x ∈ l := hX.subset (List.mem_of_getElem?
      (by rw [List.getElem?_take_of_lt (Nat.lt_succ_self i)]; exact hx))
    have hTl : T ≤ lastTerm l := hxT ▸ hle x hxl
    rcases hup with hgt | ⟨heq, hlen⟩
    · have hzT' : lastTerm C < T' := hzt ▸ hCT z hz
      have hnil : L (lastTerm C) ≠ [] := fun h => hC (List.prefix_nil.mp (h ▸ hCz))
      have hXz := ih (lastTerm C) hzT' (by omega) hnil
      refine (List.prefix_or_prefix_of_prefix hXz hCz).resolve_right fun hCX => ?_
      have := binv.terms T z (List.mem_of_mem_take (hCX.subset hz))
      omega
    · rw [← heq] at hly
      exact hX.trans (List.prefix_of_prefix_length_le hly hCz hlen)

/-- A settled prefix is on the log of every term not before it. -/
theorem Settled.prefix_term {P : List LogEntry} {T T' : ℕ} (hP : Settled s.members L A P T)
    (hle : T ≤ T') (hne : L T' ≠ []) : P <+: L T' := by
  rcases hP with hP | ⟨T₀, hT₀, i, hc, hpre⟩
  · exact hP.trans (linv.terms T' hne).sentinel_isPrefix
  · rcases (hT₀.trans hle).lt_or_eq with hlt | rfl
    · exact hpre.trans (leader_complete linv binv ainv hc T' hlt hne)
    · exact hpre.trans (List.take_prefix _ _)

/-- Two settled prefixes agree. -/
theorem Settled.comparable {P P' : List LogEntry} {T T' : ℕ}
    (hP : Settled s.members L A P T) (hP' : Settled s.members L A P' T') :
    P <+: P' ∨ P' <+: P := by
  have key : ∀ {P P' : List LogEntry} {T₀ i : ℕ}, Committed s.members L A T₀ i →
      P' <+: (L T₀).take (i + 1) → Settled s.members L A P T₀ → P <+: P' ∨ P' <+: P := by
    intro P P' T₀ i hc hpre hP
    have hne : L T₀ ≠ [] := List.ne_nil_of_length_pos (Nat.zero_lt_of_lt hc.lt_length)
    exact List.prefix_or_prefix_of_prefix (hP.prefix_term linv binv ainv (le_refl _) hne)
      (hpre.trans (List.take_prefix _ _))
  rcases hP with h | ⟨T₁, h₁, i, hc, hpre⟩ <;> rcases hP' with h' | ⟨T₂, h₂, j, hc', hpre'⟩
  · exact List.prefix_or_prefix_of_prefix h h'
  · exact key hc' hpre' (Or.inl h)
  · exact (key hc hpre (Or.inl h')).symm
  · rcases le_total T₁ T₂ with hle | hle
    · exact key hc' hpre' (Or.inr ⟨T₁, hle, i, hc, hpre⟩)
    · exact (key hc hpre (Or.inr ⟨T₂, hle, j, hc', hpre'⟩)).symm

end complete

/-! ## How a commit index moves -/

namespace RaftNode

variable (n : RaftNode)

/-- The commit index is one that the loop of `try_advance_commit` accepts. -/
structure Advanced (n n' : RaftNode) : Prop where
  role_eq : n'.role = .leader
  log_eq : n'.log = n.log
  lt_length : n'.commitIndex < n'.log.length
  mono : n.commitIndex ≤ n'.commitIndex
  term_eq : n'.logTermAt n'.commitIndex = n'.currentTerm
  pos : 1 ≤ n'.commitIndex
  count : n'.quorum ≤ 1 + n'.matching n'.commitIndex

/-- A leader commits nothing, or an entry a majority has. -/
theorem tryAdvanceCommit_spec (hrole : n.role = .leader) :
    n.tryAdvanceCommit = n ∨ n.Advanced n.tryAdvanceCommit := by
  unfold tryAdvanceCommit
  dsimp only
  split
  · next i hi =>
    have hp := List.find?_some hi
    have hmem := List.mem_of_find?_eq_some hi
    simp only [decide_eq_true_eq, List.mem_reverse, List.mem_range'_1, lastLogIndex] at hp hmem
    exact Or.inr ⟨hrole, rfl, by simp only; omega, by simp only; omega, hp.1,
      by simp only; omega, hp.2⟩
  · exact Or.inl rfl

/-- An append response commits nothing, or an entry a majority has. -/
theorem handleAppendResponse_commit (peer : NodeId) (r : RaftRpc) :
    (n.handleAppendResponse peer r).commitIndex = n.commitIndex ∨
      n.Advanced (n.handleAppendResponse peer r) := by
  cases r with
  | appendEntriesResp term success m =>
    unfold handleAppendResponse
    dsimp only
    split
    · exact Or.inl (by simp)
    · split
      · exact Or.inl rfl
      · next hrole =>
        split
        · rcases tryAdvanceCommit_spec { n with
            nextIndex := n.nextIndex.insert peer (m + 1)
            matchIndex := n.matchIndex.insert peer m } (not_not.mp hrole) with h | h
          · exact Or.inl (by rw [h])
          · exact Or.inr ⟨h.role_eq, h.log_eq, h.lt_length, h.mono, h.term_eq, h.pos, h.count⟩
        · exact Or.inl rfl
  | _ => exact Or.inl rfl

/-- The state machine is as it was. -/
def SameApplied (n n' : RaftNode) : Prop :=
  n'.lastApplied = n.lastApplied ∧ n'.applied = n.applied

/-- An append response applies nothing. -/
theorem sameApplied_handleAppendResponse (peer : NodeId) (r : RaftRpc) :
    n.SameApplied (n.handleAppendResponse peer r) := by
  cases r with
  | appendEntriesResp term success m =>
    unfold handleAppendResponse
    dsimp only
    split
    · exact ⟨by simp, by simp⟩
    · split
      · exact ⟨rfl, rfl⟩
      · split
        · unfold tryAdvanceCommit
          dsimp only
          split <;> exact ⟨rfl, rfl⟩
        · exact ⟨rfl, rfl⟩
  | _ => exact ⟨rfl, rfl⟩

end RaftNode

namespace RaftCluster.NodeMove

variable {s : RaftCluster} {b : NodeId} {e : Event} {n : RaftNode}

/-- A commit index stays, is advanced by its leader, or follows a merged request. -/
theorem commit_cases (h : s.NodeMove b e n) :
    n.commitIndex = (s.nodes b).commitIndex ∨ (s.nodes b).Advanced n ∨
    ∃ k c term leaderId prev prevTerm entries commit r, e = .recv k ∧ s.calls[k]? = some c ∧
      c.callee = b ∧ c.request = .appendEntries term leaderId prev prevTerm entries commit ∧
      n = r.1 ∧ (s.nodes b).Merges term prev prevTerm entries commit r := by
  cases h with
  | stay | elect | propose => exact Or.inl rfl
  | grant => exact Or.inl (RaftNode.handleRequestVote_spec _ rfl).2.1.commit_eq
  | append hk hb hreply hidle hreq =>
    rcases (s.nodes b).handleAppendEntries_data rfl with ⟨hsame, -⟩ | hmerge
    · exact Or.inl hsame.commit_eq
    · exact Or.inr (Or.inr ⟨_, _, _, _, _, _, _, _, _, rfl, hk, hb, hreq, rfl, hmerge⟩)
  | @countVote k c r =>
    left
    rcases (s.nodes b).handleVoteResponse_vote r with ⟨T, h⟩ | h | ⟨-, -, h | ⟨-, h⟩⟩ <;> rw [h]
    · simp
    · rfl
  | countAppend => exact ((s.nodes b).handleAppendResponse_commit _ _).imp_right Or.inl
  | apply hlt hr =>
    obtain ⟨entry, -, rfl⟩ := Option.map_eq_some_iff.mp hr
    exact Or.inl rfl

/-- The state machine stays, or takes the command after the last one applied. -/
theorem applied_cases (h : s.NodeMove b e n) :
    (s.nodes b).SameApplied n ∨
    ∃ entry, (s.nodes b).log[(s.nodes b).lastApplied + 1]? = some entry ∧
      (s.nodes b).lastApplied < (s.nodes b).commitIndex ∧ n.log = (s.nodes b).log ∧
      n.commitIndex = (s.nodes b).commitIndex ∧ n.lastApplied = (s.nodes b).lastApplied + 1 ∧
      n.applied = (s.nodes b).applied ++ [entry.command] := by
  cases h with
  | stay | elect | propose => exact Or.inl ⟨rfl, rfl⟩
  | grant =>
    obtain ⟨-, hd, -⟩ := RaftNode.handleRequestVote_spec (s.nodes b) rfl
    exact Or.inl ⟨hd.lastApplied_eq, hd.applied_eq⟩
  | append hk hb hreply hidle hreq =>
    rcases (s.nodes b).handleAppendEntries_data rfl with ⟨hsame, -⟩ | hmerge
    · exact Or.inl ⟨hsame.lastApplied_eq, hsame.applied_eq⟩
    · exact Or.inl ⟨hmerge.lastApplied_eq, hmerge.applied_eq⟩
  | @countVote k c r =>
    left
    rcases (s.nodes b).handleVoteResponse_vote r with ⟨T, h⟩ | h | ⟨-, -, h | ⟨-, h⟩⟩ <;> rw [h]
    · exact ⟨by simp, by simp⟩
    · exact ⟨rfl, rfl⟩
    · exact ⟨rfl, rfl⟩
    · exact ⟨rfl, rfl⟩
  | countAppend => exact Or.inl ((s.nodes b).sameApplied_handleAppendResponse _ _)
  | apply hlt hr =>
    obtain ⟨entry, hentry, rfl⟩ := Option.map_eq_some_iff.mp hr
    exact Or.inr ⟨entry, hentry, hlt, rfl, rfl, rfl, rfl⟩

end RaftCluster.NodeMove

theorem RaftNode.values_matchIndex (n : RaftNode) :
    n.matchIndex.values = n.matchIndex.toList.map Prod.snd := by
  have h : n.matchIndex.values = n.matchIndex.foldr (fun _ v acc => v :: acc) [] := rfl
  rw [h, ExtTreeMap.foldr_eq_foldr_toList]
  induction n.matchIndex.toList with
  | nil => rfl
  | cons x l ih => simp [ih]

/-- The peers a leader counts for an index, with the leader itself. -/
theorem exists_counted {members : List NodeId} {a : NodeId} {n : RaftNode}
    (hconf : n.Configured members a) (hnd : members.Nodup) (ha : a ∈ members) {i : ℕ}
    (hkeys : ∀ (p : NodeId) (m : ℕ), n.matchIndex[p]? = some m → p ∈ n.peers)
    (hcount : n.quorum ≤ 1 + n.matching i) :
    ∃ Q, Quorum.IsQuorum members Q ∧ ∀ p ∈ Q, p = a ∨ ∃ m, i ≤ m ∧ n.matchIndex[p]? = some m := by
  let K := (n.matchIndex.toList.filter fun kv => i ≤ kv.2).map Prod.fst
  have hK : ∀ p ∈ K, ∃ m, i ≤ m ∧ n.matchIndex[p]? = some m := by
    intro p hp
    obtain ⟨⟨q, m⟩, hq, rfl⟩ := List.mem_map.mp hp
    obtain ⟨hmem, him⟩ := List.mem_filter.mp hq
    exact ⟨m, of_decide_eq_true him, ExtTreeMap.mem_toList_iff_getElem?_eq_some.mp hmem⟩
  have hlen : K.length = n.matching i := by
    simp only [K, RaftNode.matching, n.values_matchIndex, List.length_map, List.filter_map]
    rfl
  have hKnd : K.Nodup := by
    have hkeys := ExtTreeMap.nodup_keys (t := n.matchIndex)
    rw [← ExtTreeMap.map_fst_toList_eq_keys] at hkeys
    exact hkeys.sublist (List.filter_sublist.map _)
  have hpeer : ∀ p ∈ K, p ∈ members ∧ p ≠ a := by
    intro p hp
    obtain ⟨m, -, hm⟩ := hK p hp
    exact (hconf.mem_iff p).mp (hkeys p m hm)
  refine ⟨a :: K, ⟨List.nodup_cons.mpr ⟨fun h => (hpeer a h).2 rfl, hKnd⟩, ?_, ?_⟩, ?_⟩
  · intro p hp
    rcases List.mem_cons.mp hp with rfl | hp
    · exact ha
    · exact (hpeer p hp).1
  · rw [List.length_cons, hlen, ← hconf.quorum_eq hnd ha]
    omega
  · intro p hp
    exact (List.mem_cons.mp hp).imp_right (hK p)

/-! ## The invariant -/

/-- What counts as committed is settled, in every node and every message. -/
structure CommitInv (s : RaftCluster) (L : TermLogs) (A : Acks) : Prop where
  commit : ∀ a ∈ s.members, (s.nodes a).commitIndex < (s.nodes a).log.length ∧
    Settled s.members L A ((s.nodes a).log.take ((s.nodes a).commitIndex + 1))
      (s.nodes a).currentTerm
  calls : ∀ c ∈ s.calls, ∀ term leaderId prev prevTerm entries commit,
    c.request = .appendEntries term leaderId prev prevTerm entries commit →
      commit < (L term).length ∧ Settled s.members L A ((L term).take (commit + 1)) term
  applied : ∀ a ∈ s.members, (s.nodes a).lastApplied ≤ (s.nodes a).commitIndex ∧
    (s.nodes a).applied =
      ((s.nodes a).log.take ((s.nodes a).lastApplied + 1)).tail.map LogEntry.command

namespace CommitInv

variable {s t : RaftCluster} {g : Grants} {L : TermLogs} {B : Ballots} {A : Acks} {e : Event}

section step

variable (einv : ElectionInv s g) (linv : LogInv s g L) (binv : BallotInv s g L B)
  (ainv : AckInv s L B A) (inv : CommitInv s L A) (h : s.Move e t) (hok : s.SoundStep e)
include einv linv binv ainv inv h hok

/-- What is committed on a log stays there. -/
theorem committed_kept {b : NodeId} (hb : b ∈ s.members) :
    (s.nodes b).log.take ((s.nodes b).commitIndex + 1) <+: (t.nodes b).log := by
  obtain ⟨hlt, hset⟩ := inv.commit b hb
  have htake := List.take_prefix ((s.nodes b).commitIndex + 1) (s.nodes b).log
  rcases (h.node b).log_cases with hlog | ⟨command, -, -, -, hlog⟩ |
    ⟨_, c, term, leaderId, prev, prevTerm, entries, commit, r, -, hk, -, hreq, hn, hmerge⟩
  · rwa [hlog]
  · rw [hlog]
    exact htake.trans (List.prefix_append _ _)
  · obtain ⟨l, hl, hpre, hc⟩ := linv.calls c (List.mem_of_getElem? hk) _ _ _ _ _ _ hreq
    rw [hn]
    rcases linv.merged hb hl hpre hc hmerge with ⟨-, hlog⟩ | ⟨hnot, hlog⟩ <;> rw [hlog]
    · exact htake
    · have hne : L term ≠ [] := fun h0 => hl (List.prefix_nil.mp (h0 ▸ hpre))
      have hP := hset.prefix_term linv binv ainv hmerge.term_le hne
      exact (List.prefix_or_prefix_of_prefix hP hpre).resolve_right
        fun h' => hnot (h'.trans htake)

/-- A step keeps the commit index of every node settled. -/
theorem commit_step {b : NodeId} (hb : b ∈ s.members) :
    (t.nodes b).commitIndex < (t.nodes b).log.length ∧
      Settled s.members (L.observe t) (A.observe t)
        ((t.nodes b).log.take ((t.nodes b).commitIndex + 1)) (t.nodes b).currentTerm := by
  have hext := linv.extends_observe einv h
  have hAext : A.Extends (A.observe t) := fun p T i hA => Or.inl hA
  have hbt : b ∈ t.members := h.members_eq.symm ▸ hb
  have hkept := inv.committed_kept einv linv binv ainv h hok hb
  obtain ⟨hlt, hset⟩ := inv.commit b hb
  -- an unchanged commit index covers the same entries as before
  have hsame : (t.nodes b).commitIndex = (s.nodes b).commitIndex →
      (t.nodes b).commitIndex < (t.nodes b).log.length ∧
      Settled s.members (L.observe t) (A.observe t)
        ((t.nodes b).log.take ((t.nodes b).commitIndex + 1)) (t.nodes b).currentTerm := by
    intro heq
    have hlen := hkept.length_le
    rw [List.length_take] at hlen
    refine ⟨by omega, ?_⟩
    have htake : (t.nodes b).log.take ((t.nodes b).commitIndex + 1) =
        (s.nodes b).log.take ((s.nodes b).commitIndex + 1) := by
      rw [heq]
      refine (List.prefix_of_prefix_length_le (List.take_prefix _ _) hkept ?_).eq_of_length ?_ <;>
        simp only [List.length_take] <;> omega
    rw [htake]
    exact hset.mono hext hAext (h.voteLe b).term_le
  rcases (h.node b).commit_cases with heq | hadv |
    ⟨k, c, term, leaderId, prev, prevTerm, entries, commit, r, he, hk, hcb, hreq, hn, hmerge⟩
  · exact hsame heq
  · have heinv := einv.step h
    have hainv := ainv.step einv linv binv h hok
    have hL := TermLogs.observe_leader (L := L) heinv hbt hadv.role_eq
    refine ⟨hadv.lt_length, Or.inr ⟨_, le_refl _, (t.nodes b).commitIndex, ⟨?_, ?_⟩, ?_⟩⟩
    · have hterm := hadv.term_eq
      rw [RaftNode.logTermAt, List.getElem?_eq_getElem hadv.lt_length] at hterm
      rw [hL, List.getElem?_eq_getElem hadv.lt_length]
      exact congrArg some hterm
    · have hconf := heinv.config b hbt
      obtain ⟨Q, hQ, hQA⟩ := exists_counted hconf heinv.nodup hbt
        (fun p m hm => (hainv.matched b hbt p m hm).1) hadv.count
      refine ⟨Q, h.members_eq ▸ hQ, fun p hp => ?_⟩
      rcases hQA p hp with rfl | ⟨m, him, hm⟩
      · exact hainv.leaders p hbt hadv.role_eq _ hadv.lt_length
      · exact (hainv.matched b hbt p m hm).2 hadv.role_eq _ hadv.pos him
    · rw [hL]
  · obtain rfl := he
    have hmem := List.mem_of_getElem? hk
    obtain ⟨l, hl, hpre, hcar⟩ := linv.calls c hmem _ _ _ _ _ _ hreq
    have hsound := hok c hk
    rw [hreq, hcb] at hsound
    have hlog := linv.merged_isPrefix hb hl hpre hcar hmerge hsound
    obtain ⟨hclt, hcset⟩ := inv.calls c hmem _ _ _ _ _ _ hreq
    have hcommit := hmerge.commit_eq
    rw [← hn] at hlog hcommit
    by_cases hgt : commit > (s.nodes b).commitIndex
    · rw [if_pos hgt] at hcommit
      have hpos := ((linv.step einv h).nodes b hbt).length_pos
      have hbound : (t.nodes b).commitIndex < (t.nodes b).log.length := by
        simp only [RaftNode.lastLogIndex] at hcommit
        omega
      refine ⟨hbound, ?_⟩
      have hterm : (t.nodes b).currentTerm = term := by rw [hn, hmerge.term_eq]
      rw [hterm]
      refine (hcset.mono hext hAext (le_refl _)).of_isPrefix ?_
      refine List.prefix_of_prefix_length_le ((List.take_prefix _ _).trans hlog)
        (List.take_prefix _ _) ?_
      rw [List.length_take, List.length_take]
      omega
    · rw [if_neg hgt] at hcommit
      exact hsame hcommit

/-- A step keeps what every node applied within what it committed. -/
theorem applied_step {b : NodeId} (hb : b ∈ s.members) :
    (t.nodes b).lastApplied ≤ (t.nodes b).commitIndex ∧ (t.nodes b).applied =
      ((t.nodes b).log.take ((t.nodes b).lastApplied + 1)).tail.map LogEntry.command := by
  have hkept := inv.committed_kept einv linv binv ainv h hok hb
  have hlt := (inv.commit b hb).1
  obtain ⟨hle, happ⟩ := inv.applied b hb
  rcases (h.node b).applied_cases with ⟨hlast, happ'⟩ | ⟨x, hx, hlt', hlog, hc, hlast, happ'⟩
  · have hmono : (s.nodes b).commitIndex ≤ (t.nodes b).commitIndex := by
      rcases (h.node b).commit_cases with heq | hadv |
        ⟨k, c, term, leaderId, prev, prevTerm, entries, commit, r, -, -, -, -, hn, hmerge⟩
      · exact heq.ge
      · exact hadv.mono
      · rw [hn, hmerge.commit_eq]
        have := hkept.length_le
        rw [hn, List.length_take] at this
        simp only [RaftNode.lastLogIndex]
        split <;> omega
    refine ⟨by omega, ?_⟩
    have htake : (t.nodes b).log.take ((s.nodes b).lastApplied + 1) =
        (s.nodes b).log.take ((s.nodes b).lastApplied + 1) := by
      have hpre : (s.nodes b).log.take ((s.nodes b).lastApplied + 1) <+: (t.nodes b).log :=
        (List.take_prefix_take_left (by omega)).trans hkept
      have hlen := hpre.length_le
      rw [List.length_take] at hlen
      refine (List.prefix_of_prefix_length_le (List.take_prefix _ _) hpre ?_).eq_of_length ?_ <;>
        simp only [List.length_take] <;> omega
    rw [hlast, happ', happ, htake]
  · refine ⟨by omega, ?_⟩
    have hlen := (List.getElem?_eq_some_iff.mp hx).1
    rw [happ', happ, hlast, hlog, List.take_add_one (i := (s.nodes b).lastApplied + 1), hx]
    have hne : (s.nodes b).log.take ((s.nodes b).lastApplied + 1) ≠ [] := by
      apply List.ne_nil_of_length_pos
      rw [List.length_take]
      omega
    rw [List.tail_append_of_ne_nil hne]
    simp

/-- A step keeps what is committed. -/
theorem step : CommitInv t (L.observe t) (A.observe t) := by
  have hm := h.members_eq
  have hext := linv.extends_observe einv h
  have hAext : A.Extends (A.observe t) := fun p T i hA => Or.inl hA
  constructor
  · intro a ha
    rw [hm] at ha ⊢
    exact inv.commit_step einv linv binv ainv h hok ha
  · have hold : ∀ c ∈ s.calls, ∀ term leaderId prev prevTerm entries commit,
        c.request = .appendEntries term leaderId prev prevTerm entries commit →
          commit < (L.observe t term).length ∧ Settled s.members (L.observe t) (A.observe t)
            ((L.observe t term).take (commit + 1)) term := by
      intro c hc term leaderId prev prevTerm entries commit hreq
      obtain ⟨hlt, hset⟩ := inv.calls c hc term leaderId prev prevTerm entries commit hreq
      refine ⟨hlt.trans_le (hext term).length_le, ?_⟩
      rw [AckInv.take_observe hext hlt]
      exact hset.mono hext hAext (le_refl _)
    intro c hc
    rw [hm]
    cases h.call hc with
    | old hc' => exact hold _ hc'
    | @append _ a p ha hrole hp =>
      intro term leaderId prev prevTerm entries commit hreq
      obtain ⟨rfl, rfl, -⟩ := RaftNode.carried_sendAppendEntriesTo
        ((h.node a).nextOk (linv.next a ha)) hreq
      rw [TermLogs.observe_leader (einv.step h) (hm.symm ▸ ha) hrole]
      exact inv.commit_step einv linv binv ainv h hok ha
    | request => exact fun _ _ _ _ _ _ hreq => by cases hreq
    | @granted k c _ _ _ _ _ hk => exact hold c (List.mem_of_getElem? hk)
    | @appended k c _ _ _ _ _ _ _ hk => exact hold c (List.mem_of_getElem? hk)
  · exact fun a ha => inv.applied_step einv linv binv ainv h hok (hm ▸ ha)

end step

/-- Nothing but the sentinel is committed at the start. -/
theorem start (h : s.Start) (L : TermLogs) (A : Acks) : CommitInv s L A := by
  have hnode : ∀ a ∈ s.members, ∃ peers, s.nodes a = startRaft a peers := by
    intro a ha
    obtain ⟨peers, -, -, hn⟩ := h.started a ha
    exact ⟨peers, hn⟩
  refine ⟨fun a ha => ?_, by simp [h.calls], fun a ha => ?_⟩
  · obtain ⟨peers, hn⟩ := hnode a ha
    rw [hn]
    exact ⟨Nat.one_pos, Or.inl (List.prefix_refl _)⟩
  · obtain ⟨peers, hn⟩ := hnode a ha
    rw [hn]
    exact ⟨le_refl _, rfl⟩

end CommitInv

/-! ## Runs of sound steps -/

/-- What the invariants know of the past of a run. -/
structure History where
  votes : Grants
  logs : TermLogs
  ballots : Ballots
  acks : Acks

/-- The history only grows. -/
structure History.Extends (H H' : History) : Prop where
  logs : H.logs.Extends H'.logs
  acks : H.acks.Extends H'.acks

/-- The invariants of the elections, the logs, the votes, the acknowledgements and the
commits. -/
structure SafetyInv (s : RaftCluster) (H : History) : Prop where
  election : ElectionInv s H.votes
  log : LogInv s H.votes H.logs
  ballot : BallotInv s H.votes H.logs H.ballots
  ack : AckInv s H.logs H.ballots H.acks
  commit : CommitInv s H.logs H.acks

namespace SafetyInv

variable {s t : RaftCluster} {H : History}

/-- A cluster starts in the invariant of some history. -/
theorem start (h : s.Start) : ∃ H, SafetyInv s H :=
  ⟨⟨fun _ _ => none, fun T => if T = 0 then [.sentinel] else [], fun _ _ => none,
    fun _ _ _ => False⟩, .start h, .start h, .start h, .start h, .start h _ _⟩

/-- A step extends the history and keeps the invariant. -/
theorem step (inv : SafetyInv s H) {e : Event} (hok : s.SoundStep e) (h : s.Move e t) :
    ∃ H', H.Extends H' ∧ SafetyInv t H' := by
  refine ⟨⟨H.votes.observe t, H.logs.observe t, H.ballots.observe H.logs t, H.acks.observe t⟩,
    ⟨inv.log.extends_observe inv.election h, fun p T i hA => Or.inl hA⟩, ?_, ?_, ?_, ?_, ?_⟩
  · exact inv.election.step h
  · exact inv.log.step inv.election h
  · exact inv.ballot.step inv.election inv.log h
  · exact inv.ack.step inv.election inv.log inv.ballot h hok
  · exact inv.commit.step inv.election inv.log inv.ballot inv.ack h hok

/-- Along a run of sound steps the members stay, the history grows and the invariants
hold. -/
theorem run (inv : SafetyInv s H) (h : Runs.Run RaftCluster.step RaftCluster.SoundStep s t) :
    t.members = s.members ∧ ∃ H', H.Extends H' ∧ SafetyInv t H' := by
  have hkeep : ∀ (u : RaftCluster) (e : Event) (v : RaftCluster) (H₁ : History),
      (u.members = s.members ∧ SafetyInv u H₁) → u.SoundStep e → u.step e = some v →
        ∃ H₂, H₁.Extends H₂ ∧ v.members = s.members ∧ SafetyInv v H₂ := by
    intro u e v H₁ hu hok hstep
    have hmove := RaftCluster.move_of_step hstep
    obtain ⟨H₂, hext, hinv⟩ := hu.2.step hok hmove
    exact ⟨H₂, hext, hmove.members_eq.trans hu.1, hinv⟩
  obtain ⟨H', hext, hm, hinv⟩ := h.history
    (fun _ => ⟨fun _ => List.prefix_refl _, fun _ _ _ h => h⟩)
    (fun _ _ _ h₁ h₂ => ⟨h₁.logs.trans h₂.logs, fun p T i hA => h₂.acks p T i (h₁.acks p T i hA)⟩)
    hkeep ⟨rfl, inv⟩
  exact ⟨hm, H', hext, hinv⟩

end SafetyInv

/-! ## State machine safety -/

namespace CommitInv

variable {s : RaftCluster} {L : TermLogs} {A : Acks}

/-- What was applied at an index is the command of the log there. -/
theorem getElem?_applied (inv : CommitInv s L A) {a : NodeId} (ha : a ∈ s.members) {i : ℕ}
    (hi : 1 ≤ i) (hia : i ≤ (s.nodes a).lastApplied) :
    (s.nodes a).applied[i - 1]? =
      ((s.nodes a).log.take ((s.nodes a).commitIndex + 1))[i]?.map LogEntry.command := by
  obtain ⟨hle, happ⟩ := inv.applied a ha
  rw [happ, List.getElem?_map, List.getElem?_tail, Nat.sub_add_cancel hi,
    List.getElem?_take_of_lt (by omega), List.getElem?_take_of_lt (by omega)]

end CommitInv

/-- In a run of sound steps two nodes never apply different commands at one index. -/
theorem state_machine_safety {s t : RaftCluster} (hs : s.Start)
    (ht : Runs.Run RaftCluster.step RaftCluster.SoundStep s t) {a b : NodeId}
    (ha : a ∈ t.members) (hb : b ∈ t.members) {i : ℕ} (hi : 1 ≤ i)
    (hia : i ≤ (t.nodes a).lastApplied) (hib : i ≤ (t.nodes b).lastApplied) :
    ∃ command, (t.nodes a).applied[i - 1]? = some command ∧
      (t.nodes b).applied[i - 1]? = some command := by
  obtain ⟨H₀, hstart⟩ := SafetyInv.start hs
  obtain ⟨-, H, -, inv⟩ := hstart.run ht
  have hca := (inv.commit.commit a ha).1
  have hcb := (inv.commit.commit b hb).1
  have hla := (inv.commit.applied a ha).1
  have hlb := (inv.commit.applied b hb).1
  rw [inv.commit.getElem?_applied ha hi hia, inv.commit.getElem?_applied hb hi hib]
  have hcomp := (inv.commit.commit a ha).2.comparable inv.log inv.ballot inv.ack
    (inv.commit.commit b hb).2
  generalize hP : (t.nodes a).log.take ((t.nodes a).commitIndex + 1) = P at hcomp ⊢
  generalize hQ : (t.nodes b).log.take ((t.nodes b).commitIndex + 1) = Q at hcomp ⊢
  have hiP : i < P.length := by
    rw [← hP, List.length_take]
    omega
  have hiQ : i < Q.length := by
    rw [← hQ, List.length_take]
    omega
  have heq : P[i] = Q[i] := by
    rcases hcomp with h | h
    · exact h.getElem hiP
    · exact (h.getElem hiQ).symm
  exact ⟨P[i].command, by simp [hiP], by simp [hiQ, heq]⟩

/-- Two nodes that have both applied the first command. -/
theorem state_machine_safety_two : ∃ t : RaftCluster,
    Runs.Run RaftCluster.step RaftCluster.SoundStep (RaftCluster.init ["a", "b"]) t ∧
      (t.nodes "a").lastApplied = 1 ∧ (t.nodes "b").lastApplied = 1 ∧
      ∃ command, (t.nodes "a").applied[0]? = some command ∧
        (t.nodes "b").applied[0]? = some command := by
  have hs : (RaftCluster.init ["a", "b"]).Start :=
    RaftCluster.start_init (by decide) (by decide)
  have hrun : (Runs.exec RaftCluster.step RaftCluster.SoundStep (RaftCluster.init ["a", "b"])
      [.tick "a", .recv 0, .reply 0, .propose "a" [120], .recv 0, .reply 0, .apply "a",
        .tick "a", .recv 0, .apply "b"]).any (fun t =>
          decide ("a" ∈ t.members ∧ "b" ∈ t.members ∧ (t.nodes "a").lastApplied = 1 ∧
            (t.nodes "b").lastApplied = 1)) = true := by
    decide
  obtain ⟨t, ht, hp⟩ := Runs.exists_run_of_exec hrun
  obtain ⟨ha, hb, hla, hlb⟩ := of_decide_eq_true hp
  exact ⟨t, ht, hla, hlb, state_machine_safety hs ht ha hb (le_refl 1) hla.ge hlb.ge⟩

/-- The elections and messages that make two state machines differ. `a` leads term 1 and
appends a command nobody else gets. `b` leads term 2 with the vote of `c`; its heartbeat
finds the longer log of `a`, whose reply claims index 1. `b` appends its own command there
and commits it on that reply. -/
def overclaim : List Event :=
  [.tick "a", .recv 0, .reply 0, .drop 0, .propose "a" [120], .drop 0, .drop 0,
    .tick "b", .recv 1, .reply 1, .drop 0, .tick "b", .recv 0, .propose "b" [121], .reply 0,
    .apply "b"]

/-- `a` then leads term 3 with the vote of `c`, and commits its own command at index 1. -/
def overtake : List Event :=
  [.drop 0, .drop 0, .drop 0, .tick "a", .recv 1, .reply 1, .drop 0, .propose "a" [122],
    .drop 0, .recv 0, .reply 0, .tick "a", .drop 0, .recv 0, .reply 0, .apply "a", .apply "a"]

/-- Without the condition two nodes apply different commands at index 1. -/
theorem state_machines_differ : ∃ t : RaftCluster,
    (RaftCluster.init ["a", "b", "c"]).Start ∧ (RaftCluster.init ["a", "b", "c"]).Reaches t ∧
      "a" ∈ t.members ∧ "b" ∈ t.members ∧
      (t.nodes "a").lastApplied = 2 ∧ (t.nodes "b").lastApplied = 1 ∧
      (t.nodes "a").applied[0]? = some [120] ∧ (t.nodes "b").applied[0]? = some [121] := by
  have hrun : (Runs.exec RaftCluster.step (fun _ _ => True) (RaftCluster.init ["a", "b", "c"])
      (overclaim ++ overtake)).any (fun t =>
        decide ("a" ∈ t.members ∧ "b" ∈ t.members ∧ (t.nodes "a").lastApplied = 2 ∧
          (t.nodes "b").lastApplied = 1 ∧ (t.nodes "a").applied[0]? = some [120] ∧
          (t.nodes "b").applied[0]? = some [121])) = true := by
    decide
  obtain ⟨t, ht, hp⟩ := Runs.exists_run_of_exec hrun
  exact ⟨t, RaftCluster.start_init (by decide) (by decide), ht, of_decide_eq_true hp⟩

/-! ## Leader completeness -/

/-- In a run of sound steps the leaders of later terms have every entry that a leader, or
any other node, has committed. -/
theorem leader_completeness {s t u : RaftCluster} (hs : s.Start)
    (ht : Runs.Run RaftCluster.step RaftCluster.SoundStep s t)
    (hu : Runs.Run RaftCluster.step RaftCluster.SoundStep t u) {a b : NodeId}
    (ha : a ∈ t.members) (hb : b ∈ u.members) (hlb : (u.nodes b).role = .leader)
    (hterm : (t.nodes a).currentTerm < (u.nodes b).currentTerm) {i : ℕ} {x : LogEntry}
    (hi : i ≤ (t.nodes a).commitIndex) (hx : (t.nodes a).log[i]? = some x) :
    (u.nodes b).log[i]? = some x := by
  obtain ⟨H₀, hstart⟩ := SafetyInv.start hs
  obtain ⟨-, H, -, inv⟩ := hstart.run ht
  obtain ⟨hm, H', hext, inv'⟩ := inv.run hu
  have hset := (inv.commit.commit a ha).2
  rw [← hm] at hset
  have hlog := inv'.log.leader b hb hlb
  have hpre := (hset.mono hext.logs hext.acks (le_refl _)).prefix_term inv'.log inv'.ballot
    inv'.ack hterm.le (by rw [hlog]; exact (inv'.log.nodes b hb).ne_nil)
  rw [hlog] at hpre
  rw [← List.getElem?_take_of_lt (Nat.lt_succ_of_le hi)] at hx
  obtain ⟨hlt, rfl⟩ := List.getElem?_eq_some_iff.mp hx
  rw [List.getElem?_eq_getElem (hlt.trans_le hpre.length_le), hpre.getElem hlt]

/-- `a` commits the first command in term 1, and `b` leads term 2 with it. -/
theorem leader_completeness_two : ∃ t u : RaftCluster,
    Runs.Run RaftCluster.step RaftCluster.SoundStep (RaftCluster.init ["a", "b"]) t ∧
      Runs.Run RaftCluster.step RaftCluster.SoundStep t u ∧
      ((t.nodes "a").role = .leader ∧ (t.nodes "a").currentTerm = 1 ∧
        (t.nodes "a").commitIndex = 1 ∧ (t.nodes "a").log[1]? = some ⟨1, [120]⟩) ∧
      ((u.nodes "b").role = .leader ∧ (u.nodes "b").currentTerm = 2) ∧
      (u.nodes "b").log[1]? = some ⟨1, [120]⟩ := by
  have hs : (RaftCluster.init ["a", "b"]).Start :=
    RaftCluster.start_init (by decide) (by decide)
  have hrun : (Runs.exec RaftCluster.step RaftCluster.SoundStep (RaftCluster.init ["a", "b"])
      [.tick "a", .recv 0, .reply 0, .propose "a" [120], .recv 0, .reply 0, .apply "a"]).any
      (fun t =>
        decide ("a" ∈ t.members ∧ (t.nodes "a").role = .leader ∧
          (t.nodes "a").currentTerm = 1 ∧ (t.nodes "a").commitIndex = 1 ∧
          (t.nodes "a").log[1]? = some ⟨1, [120]⟩) &&
        (Runs.exec RaftCluster.step RaftCluster.SoundStep t
          [.tick "b", .recv 0, .reply 0]).any fun u =>
            decide ("b" ∈ u.members ∧ (u.nodes "b").role = .leader ∧
              (u.nodes "b").currentTerm = 2)) = true := by
    decide
  obtain ⟨t, ht, hp⟩ := Runs.exists_run_of_exec hrun
  rw [Bool.and_eq_true, decide_eq_true_eq] at hp
  obtain ⟨⟨ha, hta⟩, hu⟩ := hp
  obtain ⟨u, hu, hp⟩ := Runs.exists_run_of_exec hu
  obtain ⟨hb, hlb, htb⟩ := of_decide_eq_true hp
  have ⟨_, hterm, hcommit, hx⟩ := hta
  exact ⟨t, u, ht, hu, hta, ⟨hlb, htb⟩,
    leader_completeness hs ht hu ha hb hlb (by omega) hcommit.ge hx⟩

/-- Without the condition a later leader may lack a committed entry : `b` has committed
its command at index 1 in term 2, and `a` leads term 3 with another. -/
theorem committed_entry_lost : ∃ t u : RaftCluster,
    (RaftCluster.init ["a", "b", "c"]).Start ∧ (RaftCluster.init ["a", "b", "c"]).Reaches t ∧
      t.Reaches u ∧ "b" ∈ t.members ∧ "a" ∈ u.members ∧
      ((t.nodes "b").role = .leader ∧ (t.nodes "b").currentTerm = 2 ∧
        (t.nodes "b").commitIndex = 1 ∧ (t.nodes "b").log[1]? = some ⟨2, [121]⟩) ∧
      ((u.nodes "a").role = .leader ∧ (u.nodes "a").currentTerm = 3 ∧
        (u.nodes "a").log[1]? = some ⟨1, [120]⟩) := by
  have hrun : (Runs.exec RaftCluster.step (fun _ _ => True) (RaftCluster.init ["a", "b", "c"])
      overclaim).any (fun t =>
        decide ("b" ∈ t.members ∧ (t.nodes "b").role = .leader ∧
          (t.nodes "b").currentTerm = 2 ∧ (t.nodes "b").commitIndex = 1 ∧
          (t.nodes "b").log[1]? = some ⟨2, [121]⟩) &&
        (Runs.exec RaftCluster.step (fun _ _ => True) t overtake).any fun u =>
          decide ("a" ∈ u.members ∧ (u.nodes "a").role = .leader ∧
            (u.nodes "a").currentTerm = 3 ∧
            (u.nodes "a").log[1]? = some ⟨1, [120]⟩)) = true := by
    decide
  obtain ⟨t, ht, hp⟩ := Runs.exists_run_of_exec hrun
  rw [Bool.and_eq_true, decide_eq_true_eq] at hp
  obtain ⟨⟨hb, htb⟩, hu⟩ := hp
  obtain ⟨u, hu, hp⟩ := Runs.exists_run_of_exec hu
  obtain ⟨ha, hua⟩ := of_decide_eq_true hp
  exact ⟨t, u, RaftCluster.start_init (by decide) (by decide), ht, hu, hb, ha, htb, hua⟩

/-! ## Match indexes -/

/-- What the peer of a leader was counted for is on its log, as long as no later term has
reached it. -/
theorem AckInv.matched_isPrefix {s : RaftCluster} {g : Grants} {L : TermLogs} {B : Ballots}
    {A : Acks} (linv : LogInv s g L) (inv : AckInv s L B A) {a p : NodeId} (ha : a ∈ s.members)
    (hrole : (s.nodes a).role = .leader) {m : ℕ}
    (hm : (s.nodes a).matchIndex[p]? = some m) (hpos : 1 ≤ m) :
    m < (s.nodes a).log.length ∧ ((s.nodes p).currentTerm ≤ (s.nodes a).currentTerm →
      (s.nodes a).log.take (m + 1) <+: (s.nodes p).log) := by
  have hack := ((inv.matched a ha p m hm).2 hrole) m hpos le_rfl
  have hlog := linv.leader a ha hrole
  have hkept := inv.kept p _ m hack
  obtain ⟨-, -, hlt⟩ := inv.within p _ m hack
  rw [hlog] at hlt hkept
  refine ⟨hlt, fun hle => ?_⟩
  rcases hkept with hpre | ⟨T, hlo, hhi, -⟩
  · exact hpre
  · omega

/-- In a run of sound steps the match index of a peer is within the log of the leader, and
the peer has the log of the leader up to it until it learns of a later term. -/
theorem match_index_sound {s t : RaftCluster} (hs : s.Start)
    (ht : Runs.Run RaftCluster.step RaftCluster.SoundStep s t) {a p : NodeId}
    (ha : a ∈ t.members) (hrole : (t.nodes a).role = .leader) {m : ℕ}
    (hm : (t.nodes a).matchIndex[p]? = some m) :
    m ≤ (t.nodes a).lastLogIndex ∧
      ((t.nodes p).currentTerm ≤ (t.nodes a).currentTerm →
        ∀ i ≤ m, (t.nodes p).log[i]? = (t.nodes a).log[i]?) := by
  obtain ⟨H₀, hstart⟩ := SafetyInv.start hs
  obtain ⟨-, H, -, inv⟩ := hstart.run ht
  rw [RaftNode.lastLogIndex]
  rcases Nat.eq_zero_or_pos m with rfl | hpos
  · -- Nothing has been counted : both logs start with the sentinel.
    refine ⟨Nat.zero_le _, fun _ i hi => ?_⟩
    obtain rfl := Nat.le_zero.mp hi
    have hp : p ∈ t.members :=
      (((inv.election.config a ha).mem_iff p).mp (inv.ack.matched a ha p 0 hm).1).1
    obtain ⟨x, hx⟩ := (inv.log.nodes a ha).sentinel_isPrefix
    obtain ⟨y, hy⟩ := (inv.log.nodes p hp).sentinel_isPrefix
    rw [← hx, ← hy]
    rfl
  · obtain ⟨hlt, hpre⟩ := inv.ack.matched_isPrefix inv.log ha hrole hm hpos
    refine ⟨by omega, fun hle i hi => ?_⟩
    obtain ⟨rest, hrest⟩ := hpre hle
    rw [← hrest, List.getElem?_append_left (by rw [List.length_take]; omega),
      List.getElem?_take_of_lt (by omega)]

/-- `a` leads with the match index 1 of `b`, and both have its command there. -/
theorem match_index_sound_two : ∃ t : RaftCluster,
    Runs.Run RaftCluster.step RaftCluster.SoundStep (RaftCluster.init ["a", "b"]) t ∧
      ((t.nodes "a").role = .leader ∧ (t.nodes "a").matchIndex["b"]? = some 1 ∧
        (t.nodes "b").currentTerm ≤ (t.nodes "a").currentTerm) ∧
      1 ≤ (t.nodes "a").lastLogIndex ∧ (t.nodes "b").log[1]? = (t.nodes "a").log[1]? := by
  have hs : (RaftCluster.init ["a", "b"]).Start :=
    RaftCluster.start_init (by decide) (by decide)
  have hrun : (Runs.exec RaftCluster.step RaftCluster.SoundStep (RaftCluster.init ["a", "b"])
      [.tick "a", .recv 0, .reply 0, .propose "a" [120], .recv 0, .reply 0]).any (fun t =>
        decide ("a" ∈ t.members ∧ (t.nodes "a").role = .leader ∧
          (t.nodes "a").matchIndex["b"]? = some 1 ∧
          (t.nodes "b").currentTerm ≤ (t.nodes "a").currentTerm)) = true := by
    decide
  obtain ⟨t, ht, hp⟩ := Runs.exists_run_of_exec hrun
  obtain ⟨ha, hrole, hm, hterm⟩ := of_decide_eq_true hp
  obtain ⟨hle, hlogs⟩ := match_index_sound hs ht ha hrole hm
  exact ⟨t, ht, ⟨hrole, hm, hterm⟩, hle, hlogs hterm 1 le_rfl⟩

/-- Without the condition a leader counts a peer for an index that its own log does not
have : `b` leads term 2 with nothing but the sentinel, and the reply of `a` claims 1. -/
theorem match_index_ahead : ∃ t : RaftCluster,
    (RaftCluster.init ["a", "b", "c"]).Start ∧ (RaftCluster.init ["a", "b", "c"]).Reaches t ∧
      "b" ∈ t.members ∧ (t.nodes "b").role = .leader ∧
      (t.nodes "b").matchIndex["a"]? = some 1 ∧ (t.nodes "b").lastLogIndex = 0 ∧
      (t.nodes "a").currentTerm ≤ (t.nodes "b").currentTerm ∧
      (t.nodes "a").log[1]? ≠ (t.nodes "b").log[1]? := by
  have hrun : (Runs.exec RaftCluster.step (fun _ _ => True) (RaftCluster.init ["a", "b", "c"])
      [.tick "a", .recv 0, .reply 0, .drop 0, .propose "a" [120], .drop 0, .drop 0,
        .tick "b", .recv 1, .reply 1, .drop 0, .tick "b", .recv 0, .reply 0]).any (fun t =>
          decide ("b" ∈ t.members ∧ (t.nodes "b").role = .leader ∧
            (t.nodes "b").matchIndex["a"]? = some 1 ∧ (t.nodes "b").lastLogIndex = 0 ∧
            (t.nodes "a").currentTerm ≤ (t.nodes "b").currentTerm ∧
            (t.nodes "a").log[1]? ≠ (t.nodes "b").log[1]?)) = true := by
    decide
  obtain ⟨t, ht, hp⟩ := Runs.exists_run_of_exec hrun
  exact ⟨t, RaftCluster.start_init (by decide) (by decide), ht, of_decide_eq_true hp⟩

end LoonyRedis
