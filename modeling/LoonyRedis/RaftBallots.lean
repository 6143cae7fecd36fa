import LoonyRedis.RaftLogs

/-!
# What a vote certifies

The up-to-date check compares the last entry of the candidate's log with the voter's. To
use it later, the history keeps the log each voter had when it voted, as long as the term
had no leader yet (`Ballots`). A term with a leader then has a majority of ballots that
the log the leader started from is at least as up to date as (`BallotInv.winner`).

Terms along a log do not fall, and a log's terms are bounded by the term of its node.
-/

set_option linter.unusedSectionVars false

namespace LoonyRedis

/-- The log a node had when it voted in a term without a leader. -/
abbrev Ballots := NodeId → ℕ → Option (List LogEntry)

/-- The ballots after looking at every vote of a term without a leader. -/
def Ballots.observe (B : Ballots) (L : TermLogs) (s : RaftCluster) : Ballots := fun v T =>
  if B v T = none ∧ v ∈ s.members ∧ T = (s.nodes v).currentTerm ∧
      (s.nodes v).votedFor ≠ none ∧ L.observe s T = [] then
    some (s.nodes v).log
  else B v T

/-- A ballot stays as it was cast. -/
def Ballots.Extends (B B' : Ballots) : Prop := ∀ v T l, B v T = some l → B' v T = some l

theorem Ballots.extends_observe (B : Ballots) (L : TermLogs) (s : RaftCluster) :
    B.Extends (B.observe L s) := by
  intro v T l hl
  rw [observe, if_neg (by simp [hl]), hl]

theorem Ballots.observe_cases {B : Ballots} {L : TermLogs} {s : RaftCluster} {v : NodeId}
    {T : ℕ} {l : List LogEntry} (h : B.observe L s v T = some l) :
    B v T = some l ∨ (v ∈ s.members ∧ T = (s.nodes v).currentTerm ∧
      (s.nodes v).votedFor ≠ none ∧ L.observe s T = [] ∧ l = (s.nodes v).log) := by
  unfold observe at h
  split at h
  · next hc => exact Or.inr ⟨hc.2.1, hc.2.2.1, hc.2.2.2.1, hc.2.2.2.2, (Option.some.inj h).symm⟩
  · exact Or.inl h

/-- The term of the last entry. -/
def lastTerm (l : List LogEntry) : ℕ := (l.getLast?.map LogEntry.term).getD 0

/-- `c` is at least as up to date as `l`. -/
def UpToDate (c l : List LogEntry) : Prop :=
  lastTerm l < lastTerm c ∨ (lastTerm c = lastTerm l ∧ l.length ≤ c.length)

/-! ## How a vote is cast -/

namespace RaftNode

variable (n : RaftNode)

/-- A vote was there before, or is granted now. -/
theorem handleRequestVote_votedFor {term : ℕ} {cand : NodeId} {lli llt : ℕ} {c : NodeId}
    (h : (n.handleRequestVote term cand lli llt).1.votedFor = some c) :
    (n.votedFor = some c ∧
      (n.handleRequestVote term cand lli llt).1.currentTerm = n.currentTerm) ∨
    (c = cand ∧ (n.handleRequestVote term cand lli llt).1.currentTerm = term ∧
      n.upToDate lli llt) := by
  obtain ⟨hle, hdata, -, granted, hresp, hgrant⟩ := n.handleRequestVote_spec
    (r := n.handleRequestVote term cand lli llt) rfl
  cases granted with
  | true =>
    obtain ⟨hterm, hvote, hup⟩ := hgrant rfl
    rw [hvote] at h
    exact Or.inr ⟨(Option.some.inj h).symm, hterm, hup⟩
  | false =>
    left
    unfold handleRequestVote at h hresp ⊢
    dsimp only at h hresp ⊢
    simp only [RaftRpc.requestVoteResp.injEq] at hresp
    rw [hresp.2] at h ⊢
    simp only [Bool.false_eq_true, if_false] at h ⊢
    split at h
    · next hgt =>
      rw [stepDown_votedFor, if_pos hgt] at h
      cases h
    · next hgt => exact ⟨h, by rw [if_neg hgt]⟩

end RaftNode

namespace RaftCluster

variable {s t : RaftCluster} {b : NodeId} {e : Event} {n : RaftNode}

/-- A vote is kept, cast for oneself at the start of an election, or granted. -/
theorem NodeMove.vote_cases (h : s.NodeMove b e n) {c : NodeId} (hc : n.votedFor = some c) :
    ((s.nodes b).votedFor = some c ∧ n.currentTerm = (s.nodes b).currentTerm) ∨
    (e = .tick b ∧ c = n.id ∧ n.role = .candidate ∧
      n.currentTerm = (s.nodes b).currentTerm + 1) ∨
    ∃ k call lli llt, e = .recv k ∧ s.calls[k]? = some call ∧ call.callee = b ∧
      call.request = .requestVote n.currentTerm c lli llt ∧ (s.nodes b).upToDate lli llt ∧
      n.log = (s.nodes b).log := by
  have hdown : ∀ term, ((s.nodes b).stepDown term).votedFor = some c →
      (s.nodes b).votedFor = some c ∧
        ((s.nodes b).stepDown term).currentTerm = (s.nodes b).currentTerm := by
    intro term hv
    rw [RaftNode.stepDown_votedFor] at hv
    split at hv
    · cases hv
    · exact ⟨hv, by rw [RaftNode.stepDown_currentTerm]; omega⟩
  cases h with
  | stay => exact Or.inl ⟨hc, rfl⟩
  | elect => exact Or.inr (Or.inl ⟨rfl, (Option.some.inj hc).symm, rfl, rfl⟩)
  | @grant k call term cand lli llt hk hb hreq =>
    rcases (s.nodes b).handleRequestVote_votedFor hc with hold | ⟨rfl, hterm, hup⟩
    · exact Or.inl hold
    · refine Or.inr (Or.inr ⟨k, call, lli, llt, rfl, hk, hb, by rw [hterm, hreq], hup, ?_⟩)
      exact (RaftNode.handleRequestVote_spec _ rfl).2.1.log_eq
  | @append k call term leaderId prev prevTerm entries commit hk hb hreply hidle hreq =>
    left
    by_cases hlt : term < (s.nodes b).currentTerm
    · rw [RaftNode.handleAppendEntries, if_pos hlt] at hc ⊢
      exact ⟨hc, rfl⟩
    · obtain hlt' | ⟨-, -, -, hterm⟩ := (s.nodes b).handleAppendEntries_vote (r :=
        (s.nodes b).handleAppendEntries term leaderId prev prevTerm entries commit) rfl
      · exact absurd hlt'.1 hlt
      · have hv : ((s.nodes b).stepDown term).votedFor = some c := by
          simp only [RaftNode.handleAppendEntries, if_neg hlt] at hc
          split at hc
          · exact hc
          · dsimp only at hc
            split at hc <;> exact hc
        obtain ⟨h1, h2⟩ := hdown term hv
        refine ⟨h1, hterm.trans ?_⟩
        rw [RaftNode.stepDown_currentTerm] at h2
        omega
  | @countVote k call r =>
    rcases (s.nodes b).handleVoteResponse_vote r with ⟨T, hn⟩ | hn | ⟨-, -, hn | ⟨-, hn⟩⟩ <;>
      rw [hn] at hc ⊢
    · exact Or.inl (hdown T hc)
    · exact Or.inl ⟨hc, rfl⟩
    · exact Or.inl ⟨hc, rfl⟩
    · exact Or.inl ⟨hc, rfl⟩
  | @countAppend k call r =>
    rcases (s.nodes b).handleAppendResponse_vote call.callee r with ⟨T, hn⟩ | hsame
    · rw [hn] at hc ⊢
      exact Or.inl (hdown T hc)
    · exact Or.inl ⟨hsame.vote_eq ▸ hc, hsame.term_eq⟩
  | propose => exact Or.inl ⟨hc, rfl⟩
  | apply hlt hr =>
    obtain ⟨entry, -, rfl⟩ := Option.map_eq_some_iff.mp hr
    exact Or.inl ⟨hc, rfl⟩

/-- The same for the record of votes. -/
theorem Move.observe_cases {g : Grants} (einv : ElectionInv s g) (h : s.Move e t)
    {v c : NodeId} {T : ℕ} (hv : g.observe t v T = some c) :
    g v T = some c ∨ (v ∈ s.members ∧ T = (t.nodes v).currentTerm ∧
      (t.nodes v).votedFor = some c ∧
      ((e = .tick v ∧ c = v ∧ T = (s.nodes v).currentTerm + 1) ∨
        ∃ k call lli llt, e = .recv k ∧ s.calls[k]? = some call ∧ call.callee = v ∧
          call.request = .requestVote T c lli llt ∧ (s.nodes v).upToDate lli llt ∧
          (t.nodes v).log = (s.nodes v).log)) := by
  unfold Grants.observe at hv
  split at hv
  · next hT =>
    have hvs : v ∈ s.members := h.members_eq ▸ hT.1
    rcases (h.node v).vote_cases hv with ⟨hold, hterm⟩ | ⟨he, hc, -, hterm⟩ | hgrant
    · left
      rw [hT.2, hterm, einv.current v hvs, hold]
    · right
      refine ⟨hvs, hT.2, hv, Or.inl ⟨he, ?_, hT.2.trans hterm⟩⟩
      rw [hc, (h.voteLe v).id_eq, (einv.config v hvs).id_eq]
    · right
      refine ⟨hvs, hT.2, hv, Or.inr ?_⟩
      rwa [hT.2]
  · exact Or.inl hv

end RaftCluster

/-! ## The invariant -/

/-- The terms of entries and votes, and the logs with which the votes were cast. -/
structure BallotInv (s : RaftCluster) (g : Grants) (L : TermLogs) (B : Ballots) : Prop where
  bounded : ∀ a ∈ s.members, ∀ x ∈ (s.nodes a).log, x.term ≤ (s.nodes a).currentTerm
  terms : ∀ T, ∀ x ∈ L T, x.term ≤ T
  named : ∀ v T c, g v T = some c → T ≤ (s.nodes c).currentTerm
  ballots : ∀ v T l, B v T = some l →
    T ≤ (s.nodes v).currentTerm ∧ g v T ≠ none ∧ L.Anchored l
  voted : ∀ v T c, g v T = some c → L T = [] → B v T ≠ none
  started : ∀ a ∈ s.members, (s.nodes a).role = .candidate →
    ∀ x ∈ (s.nodes a).log, x.term < (s.nodes a).currentTerm
  upToDate : ∀ a ∈ s.members, (s.nodes a).role = .candidate → ∀ v l,
    g v (s.nodes a).currentTerm = some a → B v (s.nodes a).currentTerm = some l →
      UpToDate (s.nodes a).log l
  requests : ∀ c ∈ s.calls, ∀ term cand lli llt, c.request = .requestVote term cand lli llt →
    (s.nodes c.caller).role = .candidate → (s.nodes c.caller).currentTerm = term →
      lli = (s.nodes c.caller).lastLogIndex ∧ llt = (s.nodes c.caller).lastLogTerm
  /-- The leader of a term started from a log that a majority of ballots found up to
  date. -/
  winner : ∀ T, 1 ≤ T → L T ≠ [] → ∃ C V, C ≠ [] ∧ C <+: L T ∧ (∀ x ∈ C, x.term < T) ∧
    Quorum.IsQuorum s.members V ∧ ∀ v ∈ V, ∃ l, B v T = some l ∧ UpToDate C l

namespace BallotInv

variable {s t : RaftCluster} {g : Grants} {L : TermLogs} {B : Ballots} {e : Event}

section step

variable (einv : ElectionInv s g) (linv : LogInv s g L) (inv : BallotInv s g L B)
  (h : s.Move e t)
include einv linv inv h

theorem bounded_step {b : NodeId} (hb : b ∈ s.members) :
    ∀ x ∈ (t.nodes b).log, x.term ≤ (t.nodes b).currentTerm := by
  intro x hx
  have hle := (h.voteLe b).term_le
  have hold := inv.bounded b hb
  rcases (h.node b).log_cases with hlog | ⟨command, -, -, hterm, hlog⟩ |
    ⟨_, c, term, leaderId, prev, prevTerm, entries, commit, r, -, hk, -, hreq, hn, hmerge⟩
  · exact (hold x (hlog ▸ hx)).trans hle
  · rw [hlog, List.mem_append, List.mem_singleton] at hx
    rcases hx with hx | rfl
    · exact (hold x hx).trans hle
    · exact hle
  · obtain ⟨l, hl, hpre, hc⟩ := linv.calls c (List.mem_of_getElem? hk) _ _ _ _ _ _ hreq
    rw [hn] at hx hle ⊢
    rw [hmerge.term_eq] at hle ⊢
    rcases linv.merged hb hl hpre hc hmerge with ⟨-, hlog⟩ | ⟨-, hlog⟩ <;> rw [hlog] at hx
    · exact (hold x hx).trans hle
    · exact inv.terms term x (hpre.subset hx)

theorem named_step {v c : NodeId} {T : ℕ} (hv : g.observe t v T = some c) :
    T ≤ (t.nodes c).currentTerm := by
  rcases h.observe_cases einv hv with hold | ⟨-, hT, -, ⟨-, rfl, -⟩ | hreq⟩
  · exact (inv.named v T c hold).trans (h.voteLe c).term_le
  · exact hT.le
  · obtain ⟨k, call, lli, llt, -, hk, -, hreq, -, -⟩ := hreq
    obtain ⟨rfl, hle, -⟩ := (einv.calls call (List.mem_of_getElem? hk)).vote _ _ _ _ hreq
    exact hle.trans (h.voteLe _).term_le

theorem voted_step {v c : NodeId} {T : ℕ} (hv : g.observe t v T = some c)
    (hT : L.observe t T = []) : B.observe L t v T ≠ none := by
  unfold Ballots.observe
  split
  · simp
  · next hnew =>
    intro hnone
    refine hnew ⟨hnone, ?_⟩
    rcases h.observe_cases einv hv with hold | ⟨hmem, hcur, hvote, -⟩
    · have hL := linv.extends_observe einv h T
      rw [hT] at hL
      exact absurd hnone (inv.voted v T c hold (List.prefix_nil.mp hL))
    · exact ⟨h.members_eq.symm ▸ hmem, hcur, by simp [hvote], hT⟩

theorem started_step {a : NodeId} (ha : a ∈ s.members) (hrole : (t.nodes a).role = .candidate) :
    ∀ x ∈ (t.nodes a).log, x.term < (t.nodes a).currentTerm := by
  intro x hx
  obtain ⟨hlog, ⟨hc, hterm⟩ | ⟨hterm, -⟩⟩ := (h.node a).candidate_cases hrole <;>
    rw [hlog] at hx <;> rw [hterm]
  · exact inv.started a ha hc x hx
  · exact Nat.lt_succ_of_le (inv.bounded a ha x hx)

/-- A request of the caller's present candidacy tells the end of its present log. -/
theorem request_kept {c : Call} (hc : c ∈ s.calls) {term : ℕ} {cand : NodeId} {lli llt : ℕ}
    (hreq : c.request = .requestVote term cand lli llt)
    (hrole : (t.nodes c.caller).role = .candidate)
    (hterm : (t.nodes c.caller).currentTerm = term) :
    lli = (t.nodes c.caller).lastLogIndex ∧ llt = (t.nodes c.caller).lastLogTerm := by
  have hle := ((einv.calls c hc).vote _ _ _ _ hreq).2.1
  obtain ⟨hlog, ⟨hcand, hcur⟩ | ⟨hcur, -⟩⟩ := (h.node c.caller).candidate_cases hrole
  · have hold := inv.requests c hc _ _ _ _ hreq hcand (hcur.symm.trans hterm)
    simpa only [RaftNode.lastLogIndex, RaftNode.lastLogTerm, hlog] using hold
  · omega

theorem upToDate_step {a : NodeId} (ha : a ∈ s.members)
    (hrole : (t.nodes a).role = .candidate) {v : NodeId} {l : List LogEntry}
    (hv : g.observe t v (t.nodes a).currentTerm = some a)
    (hl : B.observe L t v (t.nodes a).currentTerm = some l) : UpToDate (t.nodes a).log l := by
  obtain ⟨hlog, hcand⟩ := (h.node a).candidate_cases hrole
  by_cases hold : g v (t.nodes a).currentTerm = some a
  · -- an old vote, and with it an old ballot
    have hterm : (s.nodes a).role = .candidate ∧
        (t.nodes a).currentTerm = (s.nodes a).currentTerm := by
      rcases hcand with hc | ⟨hcur, -⟩
      · exact hc
      · have := inv.named _ _ _ hold
        omega
    have hB : B v (t.nodes a).currentTerm = some l := by
      rcases Ballots.observe_cases hl with hB | ⟨-, -, -, hT, -⟩
      · exact hB
      · have hL := linv.extends_observe einv h (t.nodes a).currentTerm
        rw [hT] at hL
        obtain ⟨l', hl'⟩ := Option.ne_none_iff_exists'.mp
          (inv.voted _ _ _ hold (List.prefix_nil.mp hL))
        rw [B.extends_observe L t _ _ _ hl'] at hl
        rw [hl', hl]
    rw [hlog]
    rw [hterm.2] at hold hB
    exact inv.upToDate a ha hterm.1 v l hold hB
  · obtain ⟨hvm, hcur, -, hcast⟩ := (h.observe_cases einv hv).resolve_left hold
    obtain ⟨-, -, -, -, rfl⟩ := (Ballots.observe_cases hl).resolve_left fun hB => by
      obtain ⟨c, hc⟩ := Option.ne_none_iff_exists'.mp (inv.ballots v _ l hB).2.1
      have := (einv.extends_observe h.members_eq h.voteLe) v _ c hc
      rw [hv] at this
      exact hold (this ▸ hc)
    rcases hcast with ⟨-, rfl, -⟩ | ⟨k, call, lli, llt, he, hk, -, hreq, hup, hlogv⟩
    · exact Or.inr ⟨rfl, le_refl _⟩
    · have hmem := List.mem_of_getElem? hk
      obtain ⟨rfl, -, -⟩ := (einv.calls call hmem).vote _ _ _ _ hreq
      obtain ⟨rfl, rfl⟩ := inv.request_kept einv linv h hmem hreq hrole rfl
      have hpos := (linv.nodes _ ha).length_pos
      rw [← hlog] at hpos
      simp only [RaftNode.upToDate, RaftNode.lastLogTerm, RaftNode.lastLogIndex, ← hlogv,
        decide_eq_true_eq] at hup
      rcases hup with hlt | ⟨heq, hlen⟩
      · exact Or.inl hlt
      · exact Or.inr ⟨heq, by omega⟩

theorem winner_step {T : ℕ} (hT : 1 ≤ T) (hne : L.observe t T ≠ []) :
    ∃ C V, C ≠ [] ∧ C <+: L.observe t T ∧ (∀ x ∈ C, x.term < T) ∧
      Quorum.IsQuorum s.members V ∧
      ∀ v ∈ V, ∃ l, B.observe L t v T = some l ∧ UpToDate C l := by
  have hBext := B.extends_observe L t
  by_cases hold : L T = []
  · -- the term has its first leader, who was a candidate of it before the step
    rcases L.observe_cases t T with ⟨a, hat, hrole, rfl, hobs⟩ | hobs
    · have ha : a ∈ s.members := h.members_eq ▸ hat
      obtain ⟨hterm, hlead | ⟨hcand, hlog, k, he⟩⟩ := (h.node a).leader_cases hrole
      · rw [hterm, linv.leader a ha hlead] at hold
        exact absurd hold (linv.nodes a ha).ne_nil
      · obtain ⟨V, hV, hvotes⟩ := ((einv.step h).backed a hat).leader hrole
        rw [h.members_eq] at hV
        refine ⟨(s.nodes a).log, V, (linv.nodes a ha).ne_nil, ?_, ?_, hV, fun v hv => ?_⟩
        · rw [hobs, hlog]
        · rw [hterm]
          exact inv.started a ha hcand
        · have hg : g v (t.nodes a).currentTerm = some a := by
            rcases h.observe_cases einv (hvotes v hv) with hg | ⟨-, -, -, ⟨he', -⟩ | hrecv⟩
            · exact hg
            · rw [he] at he'
              cases he'
            · obtain ⟨_, _, _, _, he', -⟩ := hrecv
              rw [he] at he'
              cases he'
          obtain ⟨l, hl⟩ := Option.ne_none_iff_exists'.mp (inv.voted _ _ _ hg hold)
          refine ⟨l, hBext _ _ _ hl, ?_⟩
          rw [hterm] at hg hl
          exact inv.upToDate a ha hcand v l hg hl
    · exact absurd (hobs.trans hold) hne
  · obtain ⟨C, V, hC, hpre, hlt, hV, hballots⟩ := inv.winner T hT hold
    refine ⟨C, V, hC, hpre.trans (linv.extends_observe einv h T), hlt, hV, fun v hv => ?_⟩
    obtain ⟨l, hl, hup⟩ := hballots v hv
    exact ⟨l, hBext _ _ _ hl, hup⟩

theorem step : BallotInv t (g.observe t) (L.observe t) (B.observe L t) := by
  have hm := h.members_eq
  have hgext := einv.extends_observe hm h.voteLe
  have hbounded : ∀ a ∈ t.members, ∀ x ∈ (t.nodes a).log, x.term ≤ (t.nodes a).currentTerm :=
    fun a ha => inv.bounded_step einv linv h (hm ▸ ha)
  constructor
  · exact hbounded
  · intro T x hx
    rcases L.observe_cases t T with ⟨a, ha, -, rfl, hobs⟩ | hobs <;> rw [hobs] at hx
    · exact hbounded a ha x hx
    · exact inv.terms T x hx
  · exact fun v T c hv => inv.named_step einv linv h hv
  · intro v T l hl
    rcases Ballots.observe_cases hl with hold | ⟨hmem, hcur, hvote, -, rfl⟩
    · obtain ⟨hle, hg, hanch⟩ := inv.ballots v T l hold
      obtain ⟨c, hc⟩ := Option.ne_none_iff_exists'.mp hg
      exact ⟨hle.trans (h.voteLe v).term_le, by simp [hgext v T c hc],
        hanch.mono (linv.extends_observe einv h)⟩
    · refine ⟨hcur.le, ?_, (linv.step einv h).nodes v hmem⟩
      rw [Grants.observe, if_pos ⟨hmem, hcur⟩]
      exact hvote
  · exact fun v T c hv hT => inv.voted_step einv linv h hv hT
  · exact fun a ha hrole => inv.started_step einv linv h (hm ▸ ha) hrole
  · exact fun a ha hrole v l hv hl => inv.upToDate_step einv linv h (hm ▸ ha) hrole hv hl
  · intro c hc term cand lli llt hreq hrole hterm
    cases h.call hc with
    | old hold => exact inv.request_kept einv linv h hold hreq hrole hterm
    | append => cases hreq
    | request =>
      cases hreq
      exact ⟨rfl, rfl⟩
    | granted hk =>
      exact inv.request_kept einv linv h (List.mem_of_getElem? hk) hreq hrole hterm
    | appended hk =>
      exact inv.request_kept einv linv h (List.mem_of_getElem? hk) hreq hrole hterm
  · intro T hT hne
    rw [hm]
    exact inv.winner_step einv linv h hT hne

end step

theorem start (h : s.Start) : BallotInv s (fun _ _ => none)
    (fun T => if T = 0 then [.sentinel] else []) fun _ _ => none := by
  have hnode : ∀ a ∈ s.members, (s.nodes a).role = .follower ∧
      (s.nodes a).log = [.sentinel] := by
    intro a ha
    obtain ⟨peers, -, -, hn⟩ := h.started a ha
    rw [hn]
    exact ⟨rfl, rfl⟩
  constructor
  · intro a ha x hx
    rw [(hnode a ha).2, List.mem_singleton] at hx
    subst hx
    exact Nat.zero_le _
  · intro T x hx
    by_cases h0 : T = 0
    · rw [if_pos h0, List.mem_singleton] at hx
      subst hx
      exact Nat.zero_le _
    · rw [if_neg h0] at hx
      cases hx
  · intro v T c hc
    cases hc
  · intro v T l hl
    cases hl
  · intro v T c hc
    cases hc
  · intro a ha hrole
    rw [(hnode a ha).1] at hrole
    cases hrole
  · intro a ha hrole
    rw [(hnode a ha).1] at hrole
    cases hrole
  · simp [h.calls]
  · intro T hT hne
    exact absurd (if_neg (by omega)) hne

end BallotInv

end LoonyRedis
