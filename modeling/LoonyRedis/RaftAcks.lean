import LoonyRedis.RaftBallots

/-!
# What an acknowledgement certifies

A follower answers an accepted `AppendEntries` with its own last index, and a leader
counts every positive reply. Both are right only in part : a log that runs past the
entries of the request may hold entries the leader never had, and a reply to a request of
an older leadership speaks of a log that may be gone. `SoundStep` is the condition that
neither happens at a step : the follower's log, once merged, is a prefix of the leader's,
and a counted reply is of the leader's term.

In a run of sound steps an acknowledged prefix is on the follower's log, unless the
leader of a later term has overruled it (`AckInv`). With the up-to-date check and the
majorities this gives leader completeness (`AckInv.leader_complete`) : the leaders of all
later terms hold what a majority acknowledged in its own term.
-/

set_option linter.unusedSectionVars false

open Std (ExtTreeMap)

namespace LoonyRedis

/-! ## Sound steps -/

/-- The index the node will report is one up to which it has the sender's log : the
request is refused, or the log ends with the entries of the request, or is cut by them,
or has its last entry from the sender's own term. -/
def RaftNode.SoundRequest (n : RaftNode) : RaftRpc → Prop
  | .appendEntries term _ prev prevTerm entries _ =>
    n.currentTerm ≤ term → n.prevLogOk prev prevTerm →
      n.log.length ≤ prev + 1 + entries.length ∨ Conflicts n.log (prev + 1) entries ∨
        n.lastLogTerm = term
  | _ => True

/-- Only an `AppendEntries` has a condition. -/
instance (n : RaftNode) : (r : RaftRpc) → Decidable (n.SoundRequest r)
  | .appendEntries .. => inferInstanceAs (Decidable (_ → _ → _))
  | .requestVote .. | .requestVoteResp .. | .appendEntriesResp .. => isTrue trivial

/-- A counted reply is of the leader's present term. -/
def RaftNode.SoundReply (n : RaftNode) : RaftRpc → Prop
  | .appendEntriesResp term true _ =>
    n.role = .leader → term ≤ n.currentTerm → term = n.currentTerm
  | _ => True

/-- Only a success has a condition. -/
instance (n : RaftNode) : (r : RaftRpc) → Decidable (n.SoundReply r)
  | .appendEntriesResp _ true _ => inferInstanceAs (Decidable (_ → _ → _))
  | .appendEntriesResp _ false _ => isTrue trivial
  | .requestVote .. | .requestVoteResp .. | .appendEntries .. => isTrue trivial

namespace RaftCluster

/-- No acknowledgement goes wrong at this step. -/
def SoundStep (s : RaftCluster) : Event → Prop
  | .recv k => ∀ c ∈ s.calls[k]?, (s.nodes c.callee).SoundRequest c.request
  | .reply k => ∀ c ∈ s.calls[k]?, ∀ r ∈ c.reply, (s.nodes c.caller).SoundReply r
  | _ => True

/-- Only requests and replies have a condition. -/
instance (s : RaftCluster) : (e : Event) → Decidable (s.SoundStep e)
  | .recv _ => inferInstanceAs (Decidable (∀ c ∈ _, _))
  | .reply _ => inferInstanceAs (Decidable (∀ c ∈ _, _))
  | .tick _ | .drop _ | .propose .. | .apply _ => isTrue trivial

end RaftCluster

/-! ## Acknowledgements -/

/-- The node has told, or is the leader of the term itself, that it has the log of the
term up to an index. -/
abbrev Acks := NodeId → ℕ → ℕ → Prop

/-- The acknowledgements after looking at every leader and every reply in flight. -/
def Acks.observe (A : Acks) (s : RaftCluster) : Acks := fun p T i =>
  A p T i ∨
  (p ∈ s.members ∧ (s.nodes p).role = .leader ∧ (s.nodes p).currentTerm = T ∧
    i < (s.nodes p).log.length) ∨
  ∃ c ∈ s.calls, c.callee = p ∧ ∃ m, c.reply = some (.appendEntriesResp T true m) ∧ i ≤ m

/-- Nothing that was acknowledged is forgotten. -/
def Acks.Extends (A A' : Acks) : Prop := ∀ p T i, A p T i → A' p T i

/-- The leader of `T` has another log than `l`. -/
def Overruled (L : TermLogs) (l : List LogEntry) (T : ℕ) : Prop :=
  ¬ l <+: L T ∧ ¬ L T <+: l

/-- `l` still starts with `X`, or a leader between the two terms has overruled `X`. -/
def Kept (L : TermLogs) (X : List LogEntry) (lo hi : ℕ) (l : List LogEntry) : Prop :=
  X <+: l ∨ ∃ T, lo < T ∧ T < hi ∧ Overruled L X T

theorem Overruled.mono {L L' : TermLogs} (hext : L.Extends L') {l : List LogEntry} {T : ℕ}
    (h : Overruled L l T) : Overruled L' l T := by
  refine ⟨fun hpre => ?_, fun hpre => h.2 ((hext T).trans hpre)⟩
  rcases List.prefix_or_prefix_of_prefix hpre (hext T) with h1 | h2
  · exact h.1 h1
  · exact h.2 h2

theorem Overruled.ne_nil {L : TermLogs} {l : List LogEntry} {T : ℕ} (h : Overruled L l T) :
    L T ≠ [] := by
  intro hnil
  exact h.2 (hnil ▸ List.nil_prefix)

theorem Kept.mono {L L' : TermLogs} (hext : L.Extends L') {X l : List LogEntry}
    {lo hi hi' : ℕ} (hle : hi ≤ hi') (h : Kept L X lo hi l) : Kept L' X lo hi' l := by
  refine h.imp_right ?_
  rintro ⟨T, h1, h2, h3⟩
  exact ⟨T, h1, by omega, h3.mono hext⟩

/-! ## Acknowledgements counted by a leader -/

namespace RaftNode

variable (n : RaftNode)

theorem matchIndex_tryAdvanceCommit : n.tryAdvanceCommit.matchIndex = n.matchIndex := by
  unfold tryAdvanceCommit
  dsimp only
  split <;> rfl

theorem handleAppendResponse_match (peer : NodeId) (r : RaftRpc) :
    (n.handleAppendResponse peer r).matchIndex = n.matchIndex ∨
      ∃ term m, r = .appendEntriesResp term true m ∧ n.role = .leader ∧
        term ≤ n.currentTerm ∧
        (n.handleAppendResponse peer r).matchIndex = n.matchIndex.insert peer m := by
  cases r with
  | appendEntriesResp term success m =>
    unfold handleAppendResponse
    dsimp only
    split
    · left
      unfold stepDown
      split <;> rfl
    · next hterm =>
      split
      · exact Or.inl rfl
      · next hrole =>
        cases success with
        | false => exact Or.inl rfl
        | true =>
          exact Or.inr ⟨term, m, rfl, not_not.mp hrole, not_lt.mp hterm,
            matchIndex_tryAdvanceCommit _⟩
  | _ => exact Or.inl rfl

end RaftNode

namespace RaftCluster.NodeMove

variable {s : RaftCluster} {b : NodeId} {e : Event} {n : RaftNode}

/-- An entry of `match_index` is old, the 0 of a new leader, or a reply just counted. -/
theorem match_cases (h : s.NodeMove b e n) {p : NodeId} {m : ℕ}
    (hm : n.matchIndex[p]? = some m) :
    ((s.nodes b).matchIndex[p]? = some m ∧
      (n.role = .leader → (s.nodes b).role = .leader ∨ p ∉ n.peers)) ∨
    (p ∈ n.peers ∧ m = 0) ∨
    ∃ k c term, e = .reply k ∧ s.calls[k]? = some c ∧ c.caller = b ∧ c.callee = p ∧
      c.reply = some (.appendEntriesResp term true m) ∧ (s.nodes b).role = .leader ∧
      term ≤ (s.nodes b).currentTerm := by
  have hlead := h.leader_cases
  cases h with
  | stay => exact Or.inl ⟨hm, Or.inl⟩
  | elect => exact Or.inl ⟨hm, fun h => by cases h⟩
  | @grant k c term cand lli llt =>
    refine Or.inl ⟨?_, fun hr => Or.inl ?_⟩
    · have : ((s.nodes b).handleRequestVote term cand lli llt).1.matchIndex =
          (s.nodes b).matchIndex := by
        unfold RaftNode.handleRequestVote RaftNode.stepDown
        dsimp only
        split <;> split <;> rfl
      exact this ▸ hm
    · rcases (hlead hr).2 with h | ⟨-, -, k, hk⟩
      · exact h
      · cases hk
  | @append k c term leaderId prev prevTerm entries commit =>
    refine Or.inl ⟨?_, fun hr => Or.inl ?_⟩
    · have : ((s.nodes b).handleAppendEntries term leaderId prev prevTerm entries
          commit).1.matchIndex = (s.nodes b).matchIndex := by
        unfold RaftNode.handleAppendEntries RaftNode.stepDown
        dsimp only
        split
        · rfl
        · split <;> split <;> (try split) <;> rfl
      exact this ▸ hm
    · rcases (hlead hr).2 with h | ⟨-, -, k, hk⟩
      · exact h
      · cases hk
  | @countVote k c r =>
    rcases (s.nodes b).handleVoteResponse_vote r with ⟨T, hn⟩ | hn | ⟨-, hc, hn | ⟨-, hn⟩⟩ <;>
      rw [hn] at hm ⊢
    · refine Or.inl ⟨?_, fun h => by cases h⟩
      unfold RaftNode.stepDown at hm
      split at hm <;> exact hm
    · exact Or.inl ⟨hm, Or.inl⟩
    · exact Or.inl ⟨hm, Or.inl⟩
    · simp only [RaftNode.becomeLeader, RaftNode.getElem?_foldl_insert] at hm
      split at hm
      · next hp => exact Or.inr (Or.inl ⟨hp, (Option.some.inj hm).symm⟩)
      · next hp => exact Or.inl ⟨hm, fun _ => Or.inr hp⟩
  | @countAppend k c r term leaderId prev prevTerm entries commit hk hb hreq hreply =>
    rcases (s.nodes b).handleAppendResponse_match c.callee r with hn | ⟨T, m', hr, hrole, hT, hn⟩
    · refine Or.inl ⟨hn ▸ hm, fun hr => Or.inl ?_⟩
      rcases (s.nodes b).handleAppendResponse_vote c.callee r with ⟨T, hdown⟩ | hsame
      · rw [hdown] at hr
        cases hr
      · exact hsame.role_eq ▸ hr
    · rw [hn, ExtTreeMap.getElem?_insert] at hm
      split at hm
      · next heq =>
        obtain rfl := Option.some.inj hm
        exact Or.inr (Or.inr ⟨k, c, T, rfl, hk, hb, by simpa using heq, by rw [hreply, hr],
          hrole, hT⟩)
      · exact Or.inl ⟨hm, fun _ => Or.inl hrole⟩
  | propose hb hrole => exact Or.inl ⟨hm, fun _ => Or.inl hrole⟩
  | apply hlt hr =>
    obtain ⟨entry, -, rfl⟩ := Option.map_eq_some_iff.mp hr
    exact Or.inl ⟨hm, Or.inl⟩

end RaftCluster.NodeMove

/-! ## The invariant -/

/-- What was acknowledged stays in the logs, and in those that were voted with. -/
structure AckInv (s : RaftCluster) (L : TermLogs) (B : Ballots) (A : Acks) : Prop where
  within : ∀ p T i, A p T i →
    p ∈ s.members ∧ T ≤ (s.nodes p).currentTerm ∧ i < (L T).length
  kept : ∀ p T i, A p T i →
    Kept L ((L T).take (i + 1)) T ((s.nodes p).currentTerm + 1) (s.nodes p).log
  ballot : ∀ p T i, A p T i → ∀ T' l, T < T' → B p T' = some l →
    Kept L ((L T).take (i + 1)) T T' l
  replies : ∀ c ∈ s.calls, ∀ T m, c.reply = some (.appendEntriesResp T true m) →
    ∀ i ≤ m, A c.callee T i
  leaders : ∀ a ∈ s.members, (s.nodes a).role = .leader → ∀ i < (s.nodes a).log.length,
    A a (s.nodes a).currentTerm i
  peers : ∀ c ∈ s.calls, c.callee ∈ (s.nodes c.caller).peers
  matched : ∀ a ∈ s.members, ∀ (p : NodeId) (m : ℕ), (s.nodes a).matchIndex[p]? = some m →
    p ∈ (s.nodes a).peers ∧ ((s.nodes a).role = .leader →
      ∀ i, 1 ≤ i → i ≤ m → A p (s.nodes a).currentTerm i)

/-- A request soundly merged leaves a prefix of the log of its term. -/
theorem LogInv.merged_isPrefix {s : RaftCluster} {g : Grants} {L : TermLogs}
    (inv : LogInv s g L) {b : NodeId} (hb : b ∈ s.members) {l : List LogEntry}
    {term : ℕ} {leaderId : NodeId} {prev prevTerm : ℕ} {entries : List LogEntry} {commit : ℕ}
    {r : RaftNode × RaftRpc} (hl : l ≠ []) (hpre : l <+: L term)
    (hc : Carried l prev prevTerm entries)
    (hm : (s.nodes b).Merges term prev prevTerm entries commit r)
    (hsound : (s.nodes b).SoundRequest
      (.appendEntries term leaderId prev prevTerm entries commit)) : r.1.log <+: L term := by
  obtain ⟨rfl, hlt, -, -⟩ := inv.tail_of_merges hb hl hpre hc hm
  rcases inv.merged hb hl hpre hc hm with ⟨hpre', hlog⟩ | ⟨-, hlog⟩ <;> rw [hlog]
  · rcases hsound hm.term_le hm.prevOk with hlen | ⟨j, hj, hsome, hne⟩ | hlast
    · rw [List.length_drop] at hlen
      have heq := hpre'.eq_of_length (le_antisymm hpre'.length_le (by omega))
      exact heq ▸ hpre
    · refine absurd ?_ hne
      rw [List.length_drop] at hj
      have hjl : prev + 1 + j < l.length := by omega
      rw [List.getElem?_drop, List.getElem?_eq_getElem (hjl.trans_le hpre'.length_le),
        List.getElem?_eq_getElem hjl, hpre'.getElem hjl]
    · have hba := inv.nodes b hb
      have hpos := hba.length_pos
      rw [RaftNode.lastLogTerm, List.getLast?_eq_getElem?,
        List.getElem?_eq_getElem (by omega)] at hlast
      have hentry := hba.entry _ _ (List.getElem?_eq_getElem (Nat.sub_lt hpos Nat.one_pos))
      rw [Nat.sub_add_cancel hpos, List.take_length] at hentry
      exact hlast ▸ hentry
  · exact hpre

namespace AckInv

variable {s t : RaftCluster} {g : Grants} {L : TermLogs} {B : Ballots} {A : Acks} {e : Event}

theorem take_observe (hext : L.Extends (L.observe t)) {T i : ℕ} (hi : i < (L T).length) :
    (L.observe t T).take (i + 1) = (L T).take (i + 1) := by
  obtain ⟨u, hu⟩ := hext T
  rw [← hu, List.take_append_of_le_length hi]

section step

variable (einv : ElectionInv s g) (linv : LogInv s g L) (binv : BallotInv s g L B)
  (inv : AckInv s L B A) (h : s.Move e t) (hok : s.SoundStep e)
include einv linv binv inv h hok

/-- An acknowledgement is old, a leader's own, or that of a request just merged. -/
theorem observe_cases {p : NodeId} {T i : ℕ} (hA : A.observe t p T i) :
    A p T i ∨ (p ∈ s.members ∧ T = (t.nodes p).currentTerm ∧ i < (t.nodes p).log.length ∧
      (t.nodes p).log <+: L.observe t T) := by
  rcases hA with hA | ⟨hp, hrole, rfl, hi⟩ | ⟨c, hc, rfl, m, hreply, hi⟩
  · exact Or.inl hA
  · refine Or.inr ⟨h.members_eq ▸ hp, rfl, hi, ?_⟩
    rw [TermLogs.observe_leader (einv.step h) hp hrole]
  · cases h.call hc with
    | old hold => exact Or.inl (inv.replies _ hold T m hreply i hi)
    | append | request => cases hreply
    | granted hk hreq hr =>
      obtain ⟨-, -, -, _, hresp, -⟩ := RaftNode.handleRequestVote_spec _ hr
      rw [hresp] at hreply
      cases hreply
    | @appended k c term leaderId prev prevTerm entries commit r hk hreq hr hn =>
      have hmem := List.mem_of_getElem? hk
      have hp := (einv.calls c hmem).callee_mem
      rcases RaftNode.handleAppendEntries_data _ hr with ⟨-, T', hfalse⟩ | hm
      · rw [hfalse] at hreply
        cases hreply
      · rw [hm.reply_eq] at hreply
        obtain ⟨rfl, rfl⟩ : term = T ∧ r.1.lastLogIndex = m := by
          simpa using hreply
        obtain ⟨l, hl, hpre, hcar⟩ := linv.calls c hmem _ _ _ _ _ _ hreq
        have hsound := hok c hk
        rw [hreq] at hsound
        have hlog := linv.merged_isPrefix hp hl hpre hcar hm hsound
        have hpos := ((linv.step einv h).nodes c.callee (h.members_eq.symm ▸ hp)).length_pos
        refine Or.inr ⟨hp, ?_, ?_, ?_⟩
        · show _ = (t.nodes c.callee).currentTerm
          rw [hn, hm.term_eq]
        · show i < (t.nodes c.callee).log.length
          rw [hn] at hpos ⊢
          simp only [RaftNode.lastLogIndex] at hi
          omega
        · show (t.nodes c.callee).log <+: _
          rw [hn]
          exact hlog.trans (linv.extends_observe einv h _)

/-- What was acknowledged stays on the log of the node, or is overruled by the leader
whose request removes it. -/
theorem kept_step {p : NodeId} {T i : ℕ} (hA : A p T i) :
    Kept (L.observe t) ((L T).take (i + 1)) T ((t.nodes p).currentTerm + 1)
      (t.nodes p).log := by
  have hext := linv.extends_observe einv h
  have hle := (h.voteLe p).term_le
  obtain ⟨hp, hT, -⟩ := inv.within p T i hA
  rcases (h.node p).log_cases with hlog | ⟨command, -, -, -, hlog⟩ |
    ⟨_, c, term, leaderId, prev, prevTerm, entries, commit, r, -, hk, -, hreq, hn, hmerge⟩
  · rw [hlog]
    exact (inv.kept p T i hA).mono hext (by omega)
  · rw [hlog]
    refine ((inv.kept p T i hA).mono hext ?_).imp_left fun hpre =>
      hpre.trans (List.prefix_append _ _)
    omega
  · obtain ⟨l, hl, hpre, hc⟩ := linv.calls c (List.mem_of_getElem? hk) _ _ _ _ _ _ hreq
    have hold := (inv.kept p T i hA).mono hext
      (Nat.succ_le_succ hle : (s.nodes p).currentTerm + 1 ≤ (t.nodes p).currentTerm + 1)
    rcases linv.merged hp hl hpre hc hmerge with ⟨-, hlog⟩ | ⟨hnot, hlog⟩
    · rw [hn] at hold ⊢
      rwa [hlog]
    · rcases hold with hX | hover
      · rw [hn, hlog, hmerge.term_eq]
        by_cases hXl : (L T).take (i + 1) <+: l
        · exact Or.inl hXl
        · -- the sender's log conflicts with what was acknowledged
          have hlX : ¬ l <+: (L T).take (i + 1) := fun h => hnot (h.trans hX)
          have hTterm : T ≠ term := by
            rintro rfl
            exact (List.prefix_or_prefix_of_prefix (List.take_prefix (i + 1) (L T)) hpre).elim
              hXl hlX
          refine Or.inr ⟨term, ?_, Nat.lt_succ_self _,
            Overruled.mono hext ⟨fun hx => ?_, fun hx => ?_⟩⟩
          · have := hmerge.term_le
            omega
          · exact (List.prefix_or_prefix_of_prefix hx hpre).elim hXl hlX
          · exact hlX (hpre.trans hx)
      · exact Or.inr hover

theorem step : AckInv t (L.observe t) (B.observe L t) (A.observe t) := by
  have hm := h.members_eq
  have hext := linv.extends_observe einv h
  have hwithin : ∀ p T i, A.observe t p T i →
      p ∈ t.members ∧ T ≤ (t.nodes p).currentTerm ∧ i < (L.observe t T).length := by
    intro p T i hA
    rcases inv.observe_cases einv linv binv h hok hA with hA | ⟨hp, hT, hi, hpre⟩
    · obtain ⟨hp, hT, hi⟩ := inv.within p T i hA
      exact ⟨hm.symm ▸ hp, hT.trans (h.voteLe p).term_le, hi.trans_le (hext T).length_le⟩
    · exact ⟨hm.symm ▸ hp, hT.le, hi.trans_le hpre.length_le⟩
  have hkept : ∀ p T i, A.observe t p T i → Kept (L.observe t)
      ((L.observe t T).take (i + 1)) T ((t.nodes p).currentTerm + 1) (t.nodes p).log := by
    intro p T i hA
    rcases inv.observe_cases einv linv binv h hok hA with hA | ⟨hp, hT, hi, hpre⟩
    · rw [take_observe hext (inv.within p T i hA).2.2]
      exact inv.kept_step einv linv binv h hok hA
    · refine Or.inl (List.prefix_of_prefix_length_le (List.take_prefix _ _) hpre ?_)
      rw [List.length_take]
      omega
  constructor
  · exact hwithin
  · exact hkept
  · intro p T i hA T' l hlt hl
    rcases inv.observe_cases einv linv binv h hok hA with hold | ⟨hp, hT, hi, hpre⟩
    · rcases Ballots.observe_cases hl with hB | ⟨-, hcur, -, hnil, rfl⟩
      · rw [take_observe hext (inv.within p T i hold).2.2]
        exact (inv.ballot p T i hold T' l hlt hB).mono hext (le_refl _)
      · -- the vote is cast now, in a term that has no leader to overrule anything
        refine (hkept p T i hA).imp_right ?_
        rintro ⟨T'', h1, h2, h3⟩
        refine ⟨T'', h1, ?_, h3⟩
        have hne : T'' ≠ T' := by
          rintro rfl
          exact h3.ne_nil hnil
        omega
    · have hle := ((binv.step einv linv h).ballots p T' l hl).1
      omega
  · exact fun c hc T m hreply i hi => Or.inr (Or.inr ⟨c, hc, rfl, m, hreply, hi⟩)
  · exact fun a ha hrole i hi => Or.inr (Or.inl ⟨ha, hrole, rfl, hi⟩)
  · intro c hc
    have hold : ∀ c ∈ s.calls, c.callee ∈ (t.nodes c.caller).peers := by
      intro c hc
      rw [(h.voteLe c.caller).peers_eq]
      exact inv.peers c hc
    cases h.call hc with
    | old hc' => exact hold _ hc'
    | append ha hrole hp => exact hp
    | request ha hrole hp => exact hp
    | @granted k c _ _ _ _ _ hk => exact hold c (List.mem_of_getElem? hk)
    | @appended k c _ _ _ _ _ _ _ hk => exact hold c (List.mem_of_getElem? hk)
  · intro a ha p m hmatch
    have has : a ∈ s.members := hm ▸ ha
    have hpeers : (t.nodes a).peers = (s.nodes a).peers := (h.voteLe a).peers_eq
    rcases (h.node a).match_cases hmatch with ⟨hold, hrole⟩ | ⟨hp, rfl⟩ |
      ⟨k, c, term, rfl, hk, rfl, rfl, hreply, hrole, hle⟩
    · obtain ⟨hp, hacks⟩ := inv.matched a has p m hold
      refine ⟨hpeers ▸ hp, fun hlead i h1 hi => Or.inl ?_⟩
      rw [((h.node a).leader_cases hlead).1]
      exact hacks ((hrole hlead).resolve_right fun hn => hn (hpeers ▸ hp)) i h1 hi
    · exact ⟨hp, fun _ i h1 hi => by omega⟩
    · have hmem := List.mem_of_getElem? hk
      refine ⟨hpeers ▸ inv.peers c hmem, fun hlead i _ hi => Or.inl ?_⟩
      have hterm : term = (s.nodes c.caller).currentTerm := hok c hk _ hreply hrole hle
      rw [((h.node _).leader_cases hlead).1, ← hterm]
      exact inv.replies c hmem term m hreply i hi

end step

theorem start (h : s.Start) : AckInv s (fun T => if T = 0 then [.sentinel] else [])
    (fun _ _ => none) fun _ _ _ => False := by
  have hnode : ∀ a ∈ s.members, (s.nodes a).role = .follower ∧ (s.nodes a).matchIndex = ∅ := by
    intro a ha
    obtain ⟨peers, -, -, hn⟩ := h.started a ha
    rw [hn]
    exact ⟨rfl, rfl⟩
  refine ⟨fun _ _ _ h => h.elim, fun _ _ _ h => h.elim, fun _ _ _ h => h.elim, ?_, ?_, ?_, ?_⟩
  · simp [h.calls]
  · intro a ha hrole
    rw [(hnode a ha).1] at hrole
    cases hrole
  · simp [h.calls]
  · intro a ha p m hm
    rw [(hnode a ha).2] at hm
    simp at hm

end AckInv

end LoonyRedis
