import LoonyRedis.RaftReplies
import LoonyRedis.RaftSafety
import Mathlib.Data.Finset.Max

/-!
# One order of the proposals

The term and the commit index of a node, its committed log and the commands it has applied only
grow along a run of sound steps (`RaftNode.Grown`), and the committed logs of all nodes at all
times are parts of one log.

So the answers that clients receive are those of one sequence of commands (`Linearized`) : each
proposal is answered for its own entry, two proposals never share an index, and a proposal made
after another was answered comes after it. A leader appends behind everything its term has, and
what is committed is in the log of every later term, so no proposal can be put below an index
that was answered before it was made.
-/

set_option linter.unusedSectionVars false

open Std (ExtTreeMap)

namespace LoonyRedis

/-! ## What only grows -/

namespace RaftNode

/-- The log up to the commit index, with the sentinel. -/
def committedLog (n : RaftNode) : List LogEntry := n.log.take (n.commitIndex + 1)

/-- `n'` has taken back nothing that `n` has voted, committed or applied. -/
structure Grown (n n' : RaftNode) : Prop where
  vote : n.VoteLe n'
  commit_le : n.commitIndex ≤ n'.commitIndex
  committed : n.committedLog <+: n'.committedLog
  applied : n.applied <+: n'.applied

namespace Grown

/-- A node has grown from itself. -/
theorem refl (n : RaftNode) : n.Grown n :=
  ⟨.refl n, le_rfl, List.prefix_refl _, List.prefix_refl _⟩

/-- Growth composes. -/
theorem trans {n n' n'' : RaftNode} (h : n.Grown n') (h' : n'.Grown n'') : n.Grown n'' where
  vote :=
    { id_eq := h'.vote.id_eq.trans h.vote.id_eq
      peers_eq := h'.vote.peers_eq.trans h.vote.peers_eq
      term_le := h.vote.term_le.trans h'.vote.term_le
      kept := by
        intro hterm c hc
        have hle := h.vote.term_le
        have hle' := h'.vote.term_le
        exact h'.vote.kept (by omega) c (h.vote.kept (by omega) c hc) }
  commit_le := h.commit_le.trans h'.commit_le
  committed := h.committed.trans h'.committed
  applied := h.applied.trans h'.applied

end Grown

end RaftNode

namespace History.Extends

/-- A history extends itself. -/
theorem refl (H : History) : H.Extends H := ⟨fun _ => List.prefix_refl _, fun _ _ _ h => h⟩

/-- Extensions of histories compose. -/
theorem trans {H H' H'' : History} (h : H.Extends H') (h' : H'.Extends H'') : H.Extends H'' :=
  ⟨h.logs.trans h'.logs, fun p T i hA => h'.acks p T i (h.acks p T i hA)⟩

end History.Extends

namespace SafetyInv

variable {s t : RaftCluster} {H : History} {e : Event} {b : NodeId}

/-- The committed log is the log up to the commit index. -/
theorem committedLog_length (inv : SafetyInv s H) (hb : b ∈ s.members) :
    (s.nodes b).committedLog.length = (s.nodes b).commitIndex + 1 := by
  have hlt := (inv.commit.commit b hb).1
  rw [RaftNode.committedLog, List.length_take]
  omega

/-- What a node applied are the commands of its committed log, in order. -/
theorem applied_eq (inv : SafetyInv s H) (hb : b ∈ s.members) : (s.nodes b).applied =
    ((s.nodes b).committedLog.take ((s.nodes b).lastApplied + 1)).tail.map LogEntry.command := by
  obtain ⟨hle, happ⟩ := inv.commit.applied b hb
  rw [happ, RaftNode.committedLog, List.take_take, Nat.min_eq_left (by omega)]

/-- A node applied as many commands as its counter says. -/
theorem applied_length (inv : SafetyInv s H) (hb : b ∈ s.members) :
    (s.nodes b).applied.length = (s.nodes b).lastApplied := by
  have hlen := inv.committedLog_length hb
  have hle := (inv.commit.applied b hb).1
  rw [inv.applied_eq hb, List.length_map, List.length_tail, List.length_take]
  omega

/-- A sound step takes back nothing. -/
theorem grown_step (inv : SafetyInv s H) (hok : s.SoundStep e) (h : s.Move e t)
    (hb : b ∈ s.members) : (s.nodes b).Grown (t.nodes b) := by
  have hkept := inv.commit.committed_kept inv.election inv.log inv.ballot inv.ack h hok hb
  have hlen := inv.committedLog_length hb
  have hcommit : (s.nodes b).commitIndex ≤ (t.nodes b).commitIndex := by
    rcases (h.node b).commit_cases with heq | hadv |
      ⟨k, c, term, leaderId, prev, prevTerm, entries, commit, r, -, -, -, -, hn, hmerge⟩
    · exact heq.ge
    · exact hadv.mono
    · -- The request may name an index past the merged log, which has all that was committed.
      have hle := hkept.length_le
      rw [RaftNode.committedLog] at hlen
      rw [hlen, hn] at hle
      rw [hn, hmerge.commit_eq, RaftNode.lastLogIndex]
      split <;> omega
  refine ⟨h.voteLe b, hcommit, ?_, ?_⟩
  · refine List.prefix_of_prefix_length_le hkept (List.take_prefix _ _) ?_
    have hle := hkept.length_le
    simp only [RaftNode.committedLog, List.length_take] at hle ⊢
    omega
  · rcases (h.node b).applied_cases with ⟨-, hsame⟩ | ⟨x, -, -, -, -, -, hmore⟩
    · rw [hsame]
    · rw [hmore]
      exact List.prefix_append _ _

/-- The committed logs of a node before and another one after a part of the run. -/
theorem comparable {H' : History} (inv : SafetyInv s H) (inv' : SafetyInv t H')
    (hext : H.Extends H') (hm : t.members = s.members) {a : NodeId} (ha : a ∈ s.members)
    (hb : b ∈ t.members) : (s.nodes a).committedLog <+: (t.nodes b).committedLog ∨
      (t.nodes b).committedLog <+: (s.nodes a).committedLog := by
  have hset := (inv.commit.commit a ha).2
  rw [← hm] at hset
  exact (hset.mono hext.logs hext.acks le_rfl).comparable inv'.log inv'.ballot inv'.ack
    (inv'.commit.commit b hb).2

end SafetyInv

/-- Along a run of sound steps no node takes back a vote, a commit or an application, and what
two nodes have committed, at different times, are parts of one log. -/
theorem nothing_taken_back {s t u : RaftCluster} (hs : s.Start)
    (ht : Runs.Run RaftCluster.step RaftCluster.SoundStep s t)
    (hu : Runs.Run RaftCluster.step RaftCluster.SoundStep t u) {a b : NodeId}
    (ha : a ∈ t.members) (hb : b ∈ t.members) :
    (t.nodes a).Grown (u.nodes a) ∧
      ((t.nodes a).committedLog <+: (u.nodes b).committedLog ∨
        (u.nodes b).committedLog <+: (t.nodes a).committedLog) := by
  obtain ⟨H₀, hstart⟩ := SafetyInv.start hs
  obtain ⟨-, H, -, inv⟩ := hstart.run ht
  refine ⟨?_, ?_⟩
  · have hkeep : ∀ (v : RaftCluster) (e : Event) (w : RaftCluster) (H₁ : History),
        (v.members = t.members ∧ SafetyInv v H₁ ∧ (t.nodes a).Grown (v.nodes a)) →
          v.SoundStep e → v.step e = some w → ∃ H₂, H₁.Extends H₂ ∧ w.members = t.members ∧
            SafetyInv w H₂ ∧ (t.nodes a).Grown (w.nodes a) := by
      rintro v e w H₁ ⟨hm, hv, hgrown⟩ hok hstep
      have hmove := RaftCluster.move_of_step hstep
      obtain ⟨H₂, hext, hw⟩ := hv.step hok hmove
      exact ⟨H₂, hext, hmove.members_eq.trans hm, hw,
        hgrown.trans (hv.grown_step hok hmove (hm.symm ▸ ha))⟩
    obtain ⟨-, -, -, -, hgrown⟩ := hu.history .refl (fun _ _ _ => .trans) hkeep
      ⟨rfl, inv, .refl _⟩
    exact hgrown
  · obtain ⟨hm, H', hext, inv'⟩ := inv.run hu
    exact inv.comparable inv' hext hm ha (hm.symm ▸ hb)

/-- `a` commits in term 1, and still has it when `b` has won the term 2. -/
theorem nothing_taken_back_two : ∃ t u : RaftCluster,
    Runs.Run RaftCluster.step RaftCluster.SoundStep (RaftCluster.init ["a", "b"]) t ∧
      Runs.Run RaftCluster.step RaftCluster.SoundStep t u ∧
      (t.nodes "a").committedLog = [.sentinel, ⟨1, [120]⟩] ∧ (u.nodes "b").role = .leader ∧
      (t.nodes "a").committedLog <+: (u.nodes "a").committedLog := by
  have hs : (RaftCluster.init ["a", "b"]).Start :=
    RaftCluster.start_init (by decide) (by decide)
  have hrun : (Runs.exec RaftCluster.step RaftCluster.SoundStep (RaftCluster.init ["a", "b"])
      [.tick "a", .recv 0, .reply 0, .propose "a" [120], .recv 0, .reply 0, .apply "a"]).any
      (fun t => decide ("a" ∈ t.members ∧
          (t.nodes "a").committedLog = [.sentinel, ⟨1, [120]⟩]) &&
        (Runs.exec RaftCluster.step RaftCluster.SoundStep t
          [.tick "b", .recv 0, .reply 0]).any fun u =>
            decide ((u.nodes "b").role = .leader)) = true := by
    decide
  obtain ⟨t, ht, hp⟩ := Runs.exists_run_of_exec hrun
  rw [Bool.and_eq_true, decide_eq_true_eq] at hp
  obtain ⟨⟨ha, hlog⟩, hu⟩ := hp
  obtain ⟨u, hu, hrole⟩ := Runs.exists_run_of_exec hu
  exact ⟨t, u, ht, hu, hlog, of_decide_eq_true hrole,
    (nothing_taken_back hs ht hu ha ha).1.committed⟩

/-! ## Where proposals are put -/

namespace RaftCluster.Move

variable {s t : RaftCluster} {e : Event}

/-- A proposal is pushed by a leader, behind its log. -/
theorem pushed_cases (h : s.Move e t) : t.pushed = s.pushed ∧ s.opened ≤ t.opened ∨
    ∃ a command, a ∈ s.members ∧ (s.nodes a).role = .leader ∧ (t.nodes a).role = .leader ∧
      (t.nodes a).currentTerm = (s.nodes a).currentTerm ∧
      (t.nodes a).log = (s.nodes a).log ++ [⟨(s.nodes a).currentTerm, command⟩] ∧
      t.opened = s.opened + 1 ∧
      t.pushed = s.pushed ++
        [(s.opened, (s.nodes a).log.length, ⟨(s.nodes a).currentTerm, command⟩)] := by
  cases h with
  | @accept a command ha hrole =>
    refine .inr ⟨a, command, ha, hrole, ?_⟩
    simp [RaftCluster.send, RaftCluster.setNode, RaftNode.appendProposal, hrole]
  | refuse => exact .inl ⟨rfl, Nat.le_succ _⟩
  | _ => exact .inl ⟨rfl, le_rfl⟩

/-- A step forgets no proposal. -/
theorem pushed_subset (h : s.Move e t) : s.pushed ⊆ t.pushed := by
  rcases h.pushed_cases with ⟨hsame, -⟩ | ⟨a, command, -, -, -, -, -, -, hnew⟩
  · rw [hsame]
    exact List.Subset.refl _
  · rw [hnew]
    exact List.subset_append_left _ _

/-- A log stays, takes in the entry that is pushed, or takes in an `AppendEntries`. -/
theorem log_cases (h : s.Move e t) (b : NodeId) : (t.nodes b).log = (s.nodes b).log ∨
    (∃ command, t.pushed = s.pushed ++
        [(s.opened, (s.nodes b).log.length, ⟨(s.nodes b).currentTerm, command⟩)] ∧
      (t.nodes b).log = (s.nodes b).log ++ [⟨(s.nodes b).currentTerm, command⟩]) ∨
    ∃ c term leaderId prev prevTerm entries commit r, c ∈ s.calls ∧
      c.request = .appendEntries term leaderId prev prevTerm entries commit ∧
      t.nodes b = r.1 ∧ (s.nodes b).Merges term prev prevTerm entries commit r := by
  have hnode := h.node b
  generalize hn : t.nodes b = n at hnode ⊢
  cases hnode with
  | propose hb hrole =>
    cases h with
    | accept => exact .inr (.inl ⟨_, rfl, rfl⟩)
    | refuse hb' hrole' => exact absurd hrole hrole'
  | append hk hb hreply hidle hreq =>
    rcases (s.nodes b).handleAppendEntries_data rfl with ⟨hsame, -⟩ | hmerge
    · exact .inl hsame.log_eq
    · exact .inr (.inr ⟨_, _, _, _, _, _, _, _, List.mem_of_getElem? hk, hreq, rfl, hmerge⟩)
  | stay | elect => exact .inl rfl
  | grant => exact .inl (RaftNode.handleRequestVote_spec _ rfl).2.1.log_eq
  | countVote => exact .inl (RaftNode.log_handleVoteResponse _ _)
  | countAppend => exact .inl (RaftNode.log_handleAppendResponse _ _ _)
  | apply hlt hr =>
    obtain ⟨entry, -, rfl⟩ := Option.map_eq_some_iff.mp hr
    exact .inl rfl

/-- A result is sent by a node that has just applied its entry. -/
theorem answered_cases (h : s.Move e t) {ch : Chan} {i : ℕ} {x : LogEntry}
    (hx : (ch, .applied i x) ∈ t.answered) : (ch, .applied i x) ∈ s.answered ∨
      ∃ a ∈ s.members, i = (s.nodes a).lastApplied + 1 ∧ (s.nodes a).log[i]? = some x ∧
        (t.nodes a).lastApplied = i ∧ (t.nodes a).log = (s.nodes a).log := by
  cases h with
  | refuse =>
    rcases List.mem_append.mp hx with hx | hx
    · exact .inl hx
    · simp at hx
  | @apply a r ha hlt hr =>
    obtain ⟨entry, hentry, rfl⟩ := Option.map_eq_some_iff.mp hr
    rcases List.mem_append.mp hx with hx | hx
    · exact .inl hx
    · simp only [Option.mem_toList, Option.map_eq_some_iff, Prod.mk.injEq,
        Answer.applied.injEq] at hx
      obtain ⟨-, -, -, rfl, rfl⟩ := hx
      refine .inr ⟨a, ha, rfl, hentry, ?_⟩
      simp [RaftCluster.setNode]
  | _ => exact .inl hx

end RaftCluster.Move

/-- What holds of the proposals and the answers along a run of sound steps. -/
structure OrderInv (s : RaftCluster) (H : History) : Prop where
  /-- A proposal is in the log of its term, at its index. -/
  pushed : ∀ ch j y, (ch, j, y) ∈ s.pushed → 1 ≤ j ∧ (H.logs y.term)[j]? = some y
  /-- Two proposals of a term have different indexes. -/
  apart : ∀ p ∈ s.pushed, ∀ q ∈ s.pushed, p.2.2.term = q.2.2.term → p.2.1 = q.2.1 → p = q
  /-- A result is that of an entry that some node has applied. -/
  answered : ∀ ch i x, (ch, .applied i x) ∈ s.answered → 1 ≤ i ∧
    ∃ a ∈ s.members, i ≤ (s.nodes a).lastApplied ∧ (s.nodes a).committedLog[i]? = some x

namespace OrderInv

variable {s t : RaftCluster} {H H' : History} {e : Event}

/-- A run starts with its order. -/
theorem start (h : s.Start) (H : History) : OrderInv s H where
  pushed := by simp [h.pushed]
  apart := by simp [h.pushed]
  answered := by simp [h.answered]

/-- An entry of a term's log stays where it is. -/
theorem getElem?_mono {L L' : TermLogs} (hext : L.Extends L') {T j : ℕ} {y : LogEntry}
    (hy : (L T)[j]? = some y) : (L' T)[j]? = some y := by
  obtain ⟨hlt, rfl⟩ := List.getElem?_eq_some_iff.mp hy
  exact List.getElem?_eq_some_iff.mpr
    ⟨hlt.trans_le (hext T).length_le, ((hext T).getElem hlt).symm⟩

/-- A step keeps the order of the entries. -/
theorem step (inv : OrderInv s H) (sinv : SafetyInv s H) (sinv' : SafetyInv t H')
    (hext : H.Extends H') (hok : s.SoundStep e) (h : s.Move e t) : OrderInv t H' := by
  have hm := h.members_eq
  have hold : ∀ ch j y, (ch, j, y) ∈ s.pushed → 1 ≤ j ∧ (H'.logs y.term)[j]? = some y :=
    fun ch j y hy => (inv.pushed ch j y hy).imp_right (getElem?_mono hext.logs)
  refine ⟨?_, ?_, ?_⟩
  · rcases h.pushed_cases with ⟨hsame, -⟩ | ⟨a, command, ha, hrole, hrole', hterm, hlog, -, hnew⟩
    · rw [hsame]
      exact hold
    · intro ch j y hy
      rw [hnew] at hy
      rcases List.mem_append.mp hy with hy | hy
      · exact hold ch j y hy
      · obtain ⟨rfl, rfl, rfl⟩ : ch = s.opened ∧ j = (s.nodes a).log.length ∧
            y = ⟨(s.nodes a).currentTerm, command⟩ := by simpa using hy
        have hL := sinv'.log.leader a (hm ▸ ha) hrole'
        rw [hterm, hlog] at hL
        refine ⟨(sinv.log.nodes a ha).length_pos, ?_⟩
        rw [hL]
        exact List.getElem?_concat_length
  · rcases h.pushed_cases with ⟨hsame, -⟩ | ⟨a, command, ha, hrole, hrole', hterm, hlog, -, hnew⟩
    · rw [hsame]
      exact inv.apart
    · -- The earlier proposals of the term are in the log of the leader, the new one behind it.
      have hbelow : ∀ p ∈ s.pushed, p.2.2.term = (s.nodes a).currentTerm →
          p.2.1 < (s.nodes a).log.length := by
        rintro ⟨ch, j, y⟩ hp hT
        have hlt := (List.getElem?_eq_some_iff.mp (inv.pushed ch j y hp).2).1
        rwa [hT, sinv.log.leader a ha hrole] at hlt
      simp only [hnew, List.mem_append, List.mem_singleton]
      rintro p (hp | rfl) q (hq | rfl) hT hindex
      · exact inv.apart p hp q hq hT hindex
      · exact absurd hindex (hbelow p hp hT).ne
      · exact absurd hindex (hbelow q hq hT.symm).ne'
      · rfl
  · intro ch i x hx
    rcases h.answered_cases hx with hx | ⟨a, ha, rfl, hentry, hlast, hlog⟩
    · obtain ⟨hi, a, ha, hle, hget⟩ := inv.answered ch i x hx
      have hgrown := sinv.grown_step hok h ha
      refine ⟨hi, a, hm ▸ ha, ?_, ?_⟩
      · rw [← sinv'.applied_length (hm ▸ ha)]
        rw [← sinv.applied_length ha] at hle
        exact hle.trans hgrown.applied.length_le
      · obtain ⟨hlt, rfl⟩ := List.getElem?_eq_some_iff.mp hget
        exact List.getElem?_eq_some_iff.mpr
          ⟨hlt.trans_le hgrown.committed.length_le, (hgrown.committed.getElem hlt).symm⟩
    · refine ⟨Nat.le_add_left _ _, a, hm ▸ ha, hlast.ge, ?_⟩
      have hle := (sinv'.commit.applied a (hm ▸ ha)).1
      rw [RaftNode.committedLog, List.getElem?_take_of_lt (by omega), hlog, hentry]

end OrderInv

/-! ## Nothing is made up -/

/-- Each entry of a log, and each that is on its way, was pushed for a proposal at its index. -/
structure ProposedInv (s : RaftCluster) : Prop where
  logs : ∀ a ∈ s.members, ∀ j y, 1 ≤ j → (s.nodes a).log[j]? = some y →
    ∃ ch, (ch, j, y) ∈ s.pushed
  calls : ∀ c ∈ s.calls, ∀ term leaderId prev prevTerm entries commit,
    c.request = .appendEntries term leaderId prev prevTerm entries commit →
      ∀ k y, entries[k]? = some y → ∃ ch, (ch, prev + 1 + k, y) ∈ s.pushed

namespace ProposedInv

variable {s t : RaftCluster} {H : History} {e : Event}

/-- A cluster starts in the invariant. -/
theorem start (h : s.Start) : ProposedInv s where
  logs := by
    intro a ha j y hj hy
    obtain ⟨peers, -, -, hn⟩ := h.started a ha
    rw [hn] at hy
    have hlt := (List.getElem?_eq_some_iff.mp hy).1
    have hone : (startRaft a peers).log.length = 1 := rfl
    omega
  calls := by simp [h.calls]

/-- An entry of a merged log was there before or came with the request. -/
theorem of_merges {n : RaftNode} {term prev prevTerm : ℕ} {entries : List LogEntry} {commit : ℕ}
    {r : RaftNode × RaftRpc} (hpos : 0 < n.log.length)
    (hmerge : n.Merges term prev prevTerm entries commit r) {j : ℕ} {y : LogEntry}
    (hy : r.1.log[j]? = some y) :
    n.log[j]? = some y ∨ ∃ k, j = prev + 1 + k ∧ entries[k]? = some y := by
  rw [hmerge.log_eq] at hy
  refine Splice.of_getElem?_splice LogEntry.term ?_ hy
  have hok := hmerge.prevOk
  rw [RaftNode.prevLogOk, decide_eq_true_eq] at hok
  rcases hok with rfl | hprev
  · exact hpos
  · obtain ⟨x, hx, -⟩ := Option.map_eq_some_iff.mp hprev
    exact (List.getElem?_eq_some_iff.mp hx).1

/-- An entry of a log after a step was there before it or is the proposal. -/
theorem logs_step (inv : ProposedInv s) (sinv : SafetyInv s H) (h : s.Move e t) {b : NodeId}
    (hb : b ∈ s.members) {j : ℕ} {y : LogEntry} (hj : 1 ≤ j) (hy : (t.nodes b).log[j]? = some y) :
    ∃ ch, (ch, j, y) ∈ t.pushed := by
  have hold : (s.nodes b).log[j]? = some y → ∃ ch, (ch, j, y) ∈ t.pushed := by
    intro hy
    obtain ⟨ch, hch⟩ := inv.logs b hb j y hj hy
    exact ⟨ch, h.pushed_subset hch⟩
  rcases h.log_cases b with hsame | ⟨command, hnew, hlog⟩ |
    ⟨c, term, leaderId, prev, prevTerm, entries, commit, r, hc, hreq, hn, hmerge⟩
  · exact hold (hsame ▸ hy)
  · rw [hlog, List.getElem?_append] at hy
    split at hy
    · exact hold hy
    · have hlt := (List.getElem?_eq_some_iff.mp hy).1
      rw [List.length_singleton] at hlt
      obtain rfl : j = (s.nodes b).log.length := by omega
      rw [Nat.sub_self] at hy
      obtain rfl := Option.some.inj hy
      exact ⟨s.opened, by rw [hnew]; exact List.mem_append_right _ (List.mem_singleton.mpr rfl)⟩
  · rw [hn] at hy
    rcases of_merges (sinv.log.nodes b hb).length_pos hmerge hy with hy | ⟨k, rfl, hk⟩
    · exact hold hy
    · obtain ⟨ch, hch⟩ := inv.calls c hc _ _ _ _ _ _ hreq k y hk
      exact ⟨ch, h.pushed_subset hch⟩

/-- A step keeps that all entries were proposed. -/
theorem step (inv : ProposedInv s) (sinv : SafetyInv s H) (h : s.Move e t) : ProposedInv t := by
  have hm := h.members_eq
  have hlogs : ∀ a ∈ s.members, ∀ j y, 1 ≤ j → (t.nodes a).log[j]? = some y →
      ∃ ch, (ch, j, y) ∈ t.pushed := fun a ha j y hj hy => inv.logs_step sinv h ha hj hy
  refine ⟨fun a ha => hlogs a (hm ▸ ha), ?_⟩
  have hold : ∀ c ∈ s.calls, ∀ term leaderId prev prevTerm entries commit,
      c.request = .appendEntries term leaderId prev prevTerm entries commit →
        ∀ k y, entries[k]? = some y → ∃ ch, (ch, prev + 1 + k, y) ∈ t.pushed := by
    intro c hc term leaderId prev prevTerm entries commit hreq k y hk
    obtain ⟨ch, hch⟩ := inv.calls c hc term leaderId prev prevTerm entries commit hreq k y hk
    exact ⟨ch, h.pushed_subset hch⟩
  intro c hc
  cases h.call hc with
  | old hc' => exact hold _ hc'
  | @append _ a p ha hrole hp =>
    intro term leaderId prev prevTerm entries commit hreq k y hk
    obtain ⟨-, -, hcar⟩ := RaftNode.carried_sendAppendEntriesTo
      ((h.node a).nextOk (sinv.log.next a ha)) hreq
    rcases hcar with ⟨-, rfl⟩ | ⟨-, -, rfl⟩
    · rw [List.getElem?_drop] at hk
      exact hlogs a ha _ y (by omega) hk
    · simp at hk
  | request => exact fun _ _ _ _ _ _ hreq => by cases hreq
  | @granted k c _ _ _ _ _ hk => exact hold c (List.mem_of_getElem? hk)
  | @appended k c _ _ _ _ _ _ _ hk => exact hold c (List.mem_of_getElem? hk)

end ProposedInv

/-! ## The order -/

/-- Entries of two committed logs at one index are the same. -/
theorem SafetyInv.entry_eq {s t : RaftCluster} {H H' : History} (inv : SafetyInv s H)
    (inv' : SafetyInv t H') (hext : H.Extends H') (hm : t.members = s.members) {a b : NodeId}
    (ha : a ∈ s.members) (hb : b ∈ t.members) {i : ℕ} {x y : LogEntry}
    (hx : (s.nodes a).committedLog[i]? = some x) (hy : (t.nodes b).committedLog[i]? = some y) :
    x = y := by
  obtain ⟨hix, rfl⟩ := List.getElem?_eq_some_iff.mp hx
  obtain ⟨hiy, rfl⟩ := List.getElem?_eq_some_iff.mp hy
  rcases inv.comparable inv' hext hm ha hb with h | h
  · exact h.getElem hix
  · exact (h.getElem hiy).symm

/-- A node that has applied no more than another has applied the same first commands. -/
theorem SafetyInv.applied_isPrefix {s : RaftCluster} {H : History} (inv : SafetyInv s H)
    {a b : NodeId} (ha : a ∈ s.members) (hb : b ∈ s.members)
    (hle : (s.nodes a).lastApplied ≤ (s.nodes b).lastApplied) :
    (s.nodes a).applied <+: (s.nodes b).applied := by
  have hlen := inv.committedLog_length ha
  have hlen' := inv.committedLog_length hb
  have hbound := (inv.commit.applied b hb).1
  have hbound' := (inv.commit.applied a ha).1
  have hcomp := inv.comparable inv (.refl H) rfl ha hb
  rw [inv.applied_eq ha, inv.applied_eq hb, ← List.drop_one, ← List.drop_one]
  refine (List.IsPrefix.drop ?_ 1).map _
  generalize (s.nodes a).committedLog = P at *
  generalize (s.nodes b).committedLog = Q at *
  have hshort : (P.take ((s.nodes a).lastApplied + 1)).length ≤
      (Q.take ((s.nodes b).lastApplied + 1)).length := by
    simp only [List.length_take]
    omega
  have hP := List.take_prefix ((s.nodes a).lastApplied + 1) P
  have hQ := List.take_prefix ((s.nodes b).lastApplied + 1) Q
  rcases hcomp with h | h
  · exact List.prefix_of_prefix_length_le (hP.trans h) hQ hshort
  · exact List.prefix_of_prefix_length_le hP (hQ.trans h) hshort

/-- The commands in `order` explain what the clients have seen up to `u`, and what they had seen
already at `t`. -/
structure Linearized (order : List Bytes) (t u : RaftCluster) : Prop where
  /-- Every node has applied the first of them. -/
  replicas : ∀ a ∈ u.members, (u.nodes a).applied <+: order
  /-- Each was proposed, for its place. -/
  proposed : ∀ i command, order[i]? = some command →
    ∃ ch term, (ch, i + 1, ⟨term, command⟩) ∈ u.pushed
  /-- A result is that of the proposal's own command, at its place. -/
  answers : ∀ ch i x, (ch, .applied i x) ∈ u.answered →
    1 ≤ i ∧ order[i - 1]? = some x.command ∧ (ch, i, x) ∈ u.pushed
  /-- Two proposals have different places. -/
  once : ∀ ch ch' i x y, (ch, .applied i x) ∈ u.answered → (ch', .applied i y) ∈ u.answered →
    ch = ch'
  /-- A proposal that is made after `t` comes behind those that were answered at `t`. -/
  realTime : ∀ ch ch' i j x y, (ch, .applied i x) ∈ t.answered →
    (ch', .applied j y) ∈ u.answered → t.opened ≤ ch' → i < j

/-- A step neither makes an acknowledgement go wrong nor cuts a log below a pending index. -/
def RaftCluster.KeepsOrder (s : RaftCluster) (e : Event) : Prop := s.SoundStep e ∧ s.KeepsPending e

/-- Both conditions are decided. -/
instance (s : RaftCluster) (e : Event) : Decidable (s.KeepsOrder e) :=
  inferInstanceAs (Decidable (_ ∧ _))

/-- All that is known of a state in such a run, where `H₀` and `opened` are of an earlier state. -/
structure RunInv (H₀ : History) (opened : ℕ) (s : RaftCluster) (H : History) : Prop where
  safety : SafetyInv s H
  order : OrderInv s H
  reply : ReplyInv s
  proposed : ProposedInv s
  extends₀ : H₀.Extends H
  opened_le : opened ≤ s.opened
  /-- A later proposal is behind what the earlier leader of its term had. -/
  fresh : ∀ ch j y, (ch, j, y) ∈ s.pushed → opened ≤ ch → (H₀.logs y.term).length ≤ j

namespace RunInv

variable {s t u : RaftCluster} {H₀ H : History} {opened : ℕ}

/-- A step extends the history and keeps the invariant. -/
theorem step (inv : RunInv H₀ opened s H) {e : Event} (hok : s.KeepsOrder e) (h : s.Move e t) :
    ∃ H', H.Extends H' ∧ RunInv H₀ opened t H' := by
  obtain ⟨H', hext, hsafe⟩ := inv.safety.step hok.1 h
  refine ⟨H', hext, hsafe, inv.order.step inv.safety hsafe hext hok.1 h, inv.reply.step h hok.2,
    inv.proposed.step inv.safety h, inv.extends₀.trans hext, ?_, ?_⟩
  · rcases h.pushed_cases with ⟨-, hle⟩ | ⟨-, -, -, -, -, -, -, hopen, -⟩
    · exact inv.opened_le.trans hle
    · exact inv.opened_le.trans (hopen ▸ Nat.le_succ _)
  · rcases h.pushed_cases with ⟨hsame, -⟩ | ⟨a, command, ha, hrole, -, -, -, -, hnew⟩
    · rw [hsame]
      exact inv.fresh
    · intro ch j y hy hle
      rw [hnew] at hy
      rcases List.mem_append.mp hy with hy | hy
      · exact inv.fresh ch j y hy hle
      · obtain ⟨-, rfl, rfl⟩ : ch = s.opened ∧ j = (s.nodes a).log.length ∧
            y = ⟨(s.nodes a).currentTerm, command⟩ := by simpa using hy
        rw [← inv.safety.log.leader a ha hrole]
        exact (inv.extends₀.logs _).length_le

/-- A run extends the history and keeps the invariant. -/
theorem run (inv : RunInv H₀ opened s H)
    (h : Runs.Run RaftCluster.step RaftCluster.KeepsOrder s t) :
    t.members = s.members ∧ ∃ H', RunInv H₀ opened t H' := by
  obtain ⟨H', -, hm, hinv⟩ := h.history
    (I := fun v H' => v.members = s.members ∧ RunInv H₀ opened v H') History.Extends.refl
    (fun _ _ _ => History.Extends.trans)
    (fun v e w H₁ hv hok hstep => by
      have hmove := RaftCluster.move_of_step hstep
      obtain ⟨H₂, hext, hinv⟩ := hv.2.step hok hmove
      exact ⟨H₂, hext, hmove.members_eq.trans hv.1, hinv⟩)
    ⟨rfl, inv⟩
  exact ⟨hm, H', hinv⟩

/-- A cluster starts in the invariant of some history. -/
theorem start (h : s.Start) : ∃ H, RunInv H 0 s H := by
  obtain ⟨H, hsafe⟩ := SafetyInv.start h
  exact ⟨H, hsafe, .start h H, .start h, .start h, .refl H, Nat.zero_le _, by simp [h.pushed]⟩

/-- The present becomes the past. -/
theorem rebase (inv : RunInv H₀ opened s H) : RunInv H s.opened s H :=
  ⟨inv.safety, inv.order, inv.reply, inv.proposed, .refl H, le_rfl, fun ch j y hy hle =>
    absurd (inv.reply.opened ch j y hy) (Nat.not_lt.mpr hle)⟩

/-- A proposal made after an answer comes behind it. -/
theorem lt_of_answered {H' : History} (inv : RunInv H₀ opened t H) (inv' : RunInv H t.opened u H')
    (hm : u.members = t.members) {ch ch' : Chan} {i j : ℕ} {x y : LogEntry}
    (hx : (ch, .applied i x) ∈ t.answered) (hy : (ch', .applied j y) ∈ u.answered)
    (hle : t.opened ≤ ch') : i < j := by
  obtain ⟨-, a, ha, -, hxa⟩ := inv.order.answered ch i x hx
  obtain ⟨-, b, hb, -, hyb⟩ := inv'.order.answered ch' j y hy
  have hfresh := inv'.fresh ch' j y (inv'.reply.answered ch' j y hy) hle
  by_contra hnot
  -- Otherwise the entry was committed at `t`, and the leader of its term had it then.
  have hij : j < (t.nodes a).committedLog.length :=
    (Nat.le_of_not_lt hnot).trans_lt (List.getElem?_eq_some_iff.mp hxa).1
  have hget := List.getElem?_eq_getElem hij
  rw [inv.safety.entry_eq inv'.safety inv'.extends₀ hm ha hb hget hyb] at hget
  have hlog : (t.nodes a).log[j]? = some y := by
    rw [inv.safety.committedLog_length ha] at hij
    rwa [RaftNode.committedLog, List.getElem?_take_of_lt hij] at hget
  have hanchor := ((inv.safety.log.nodes a ha).entry j y hlog).length_le
  have hjlog := (List.getElem?_eq_some_iff.mp hlog).1
  rw [List.length_take] at hanchor
  omega

/-- Two moments of a run have one order of the commands. -/
theorem linearized {H' : History} (inv : RunInv H₀ opened t H) (inv' : RunInv H t.opened u H')
    (hm : u.members = t.members) {a : NodeId} (ha : a ∈ u.members)
    (hmax : ∀ b ∈ u.members, (u.nodes b).lastApplied ≤ (u.nodes a).lastApplied) :
    Linearized (u.nodes a).applied t u where
  replicas := fun b hb => inv'.safety.applied_isPrefix hb ha (hmax b hb)
  proposed := by
    intro i command hi
    have hlt := (List.getElem?_eq_some_iff.mp hi).1
    rw [inv'.safety.applied_length ha] at hlt
    have happ := inv'.safety.commit.getElem?_applied ha (Nat.le_add_left 1 i) hlt
    rw [Nat.add_sub_cancel, hi] at happ
    obtain ⟨⟨term, command'⟩, hx, rfl⟩ := Option.map_eq_some_iff.mp happ.symm
    rw [List.getElem?_take_of_lt
      (Nat.succ_lt_succ (Nat.lt_of_lt_of_le hlt (inv'.safety.commit.applied a ha).1))] at hx
    obtain ⟨ch, hch⟩ := inv'.proposed.logs a ha _ _ (Nat.le_add_left 1 i) hx
    exact ⟨ch, term, hch⟩
  answers := by
    intro ch i x hx
    obtain ⟨hi, b, hb, hib, hget⟩ := inv'.order.answered ch i x hx
    refine ⟨hi, ?_, inv'.reply.answered ch i x hx⟩
    have happ := inv'.safety.commit.getElem?_applied hb hi hib
    rw [← RaftNode.committedLog, hget, Option.map_some] at happ
    obtain ⟨hlt, hval⟩ := List.getElem?_eq_some_iff.mp happ
    have hpre := inv'.safety.applied_isPrefix hb ha (hmax b hb)
    exact List.getElem?_eq_some_iff.mpr
      ⟨hlt.trans_le hpre.length_le, (hpre.getElem hlt).symm.trans hval⟩
  once := by
    intro ch ch' i x y hx hy
    obtain ⟨-, b, hb, -, hxb⟩ := inv'.order.answered ch i x hx
    obtain ⟨-, c, hc, -, hyc⟩ := inv'.order.answered ch' i y hy
    obtain rfl := inv'.safety.entry_eq inv'.safety (.refl H') rfl hb hc hxb hyc
    have hsame := inv'.order.apart _ (inv'.reply.answered ch i x hx) _
      (inv'.reply.answered ch' i x hy) rfl rfl
    exact congrArg Prod.fst hsame
  realTime := fun _ _ _ _ _ _ hx hy hle => inv.lt_of_answered inv' hm hx hy hle

/-- The furthest node has the order, and each node as many commands of it as it has applied. -/
theorem exists_linearized (hs : s.Start)
    (ht : Runs.Run RaftCluster.step RaftCluster.KeepsOrder s t)
    (hu : Runs.Run RaftCluster.step RaftCluster.KeepsOrder t u) :
    (∃ a ∈ u.members, Linearized (u.nodes a).applied t u) ∧
      ∀ b ∈ u.members, (u.nodes b).applied.length = (u.nodes b).lastApplied := by
  obtain ⟨H₀, hstart⟩ := RunInv.start hs
  obtain ⟨hm, H, inv⟩ := hstart.run ht
  obtain ⟨hm', H', inv'⟩ := inv.rebase.run hu
  have hne : u.members.toFinset.Nonempty := by
    obtain ⟨a, ha⟩ := List.exists_mem_of_length_pos (Nat.zero_lt_of_lt hs.two_le)
    exact ⟨a, by rw [List.mem_toFinset, hm', hm]; exact ha⟩
  obtain ⟨a, ha, hmax⟩ := Finset.exists_max_image _ (fun b => (u.nodes b).lastApplied) hne
  rw [List.mem_toFinset] at ha
  exact ⟨⟨a, ha, inv.linearized inv' hm' ha fun b hb => hmax b (List.mem_toFinset.mpr hb)⟩,
    fun b hb => inv'.safety.applied_length hb⟩

end RunInv

/-- In a run of such steps the proposals are linearizable : there is one order of commands, the
one that the furthest node has applied, which has each answered proposal once, at the index it
was answered for, and behind all that were answered before it was made. -/
theorem proposals_linearized {s t u : RaftCluster} (hs : s.Start)
    (ht : Runs.Run RaftCluster.step RaftCluster.KeepsOrder s t)
    (hu : Runs.Run RaftCluster.step RaftCluster.KeepsOrder t u) :
    ∃ a ∈ u.members, Linearized (u.nodes a).applied t u :=
  (RunInv.exists_linearized hs ht hu).1

/-- Two proposals to `a`, the second made after the first was answered. -/
theorem proposals_linearized_two : ∃ t u : RaftCluster,
    Runs.Run RaftCluster.step RaftCluster.KeepsOrder (RaftCluster.init ["a", "b"]) t ∧
      Runs.Run RaftCluster.step RaftCluster.KeepsOrder t u ∧
      ((0, .applied 1 ⟨1, [120]⟩) ∈ t.answered ∧ t.opened = 1) ∧
      (1, .applied 2 ⟨1, [121]⟩) ∈ u.answered ∧
      ∃ a ∈ u.members, Linearized (u.nodes a).applied t u := by
  have hs : (RaftCluster.init ["a", "b"]).Start :=
    RaftCluster.start_init (by decide) (by decide)
  have hrun : (Runs.exec RaftCluster.step RaftCluster.KeepsOrder (RaftCluster.init ["a", "b"])
      [.tick "a", .recv 0, .reply 0, .propose "a" [120], .recv 0, .reply 0, .apply "a"]).any
      (fun t => decide ((0, .applied 1 ⟨1, [120]⟩) ∈ t.answered ∧ t.opened = 1) &&
        (Runs.exec RaftCluster.step RaftCluster.KeepsOrder t
          [.propose "a" [121], .recv 0, .reply 0, .apply "a"]).any fun u =>
            decide ((1, .applied 2 ⟨1, [121]⟩) ∈ u.answered)) = true := by
    decide
  obtain ⟨t, ht, hp⟩ := Runs.exists_run_of_exec hrun
  rw [Bool.and_eq_true, decide_eq_true_eq] at hp
  obtain ⟨u, hu, hanswer⟩ := Runs.exists_run_of_exec hp.2
  exact ⟨t, u, ht, hu, hp.1, of_decide_eq_true hanswer, proposals_linearized hs ht hu⟩

end LoonyRedis
