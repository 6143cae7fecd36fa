import LoonyRedis.RaftLogs

/-!
# Replies to proposals

`pending` maps a log index to the reply channel of the proposal appended there, and
nothing removes a channel but the application of its index. When an `AppendEntries` cuts
the log at or below such an index, the channel stays and is answered with the result of
whatever entry takes the place : `reply_of_other_command`.

As long as no request cuts the log below a pending index (`KeepsPending`), every answer
is the result of the proposal's own entry.
-/

open Std (ExtTreeMap)

namespace LoonyRedis

/-- The request, if merged, cuts the log above every index with a pending reply. -/
def RaftNode.KeepsPending (n : RaftNode) : RaftRpc → Prop
  | .appendEntries term _ prev prevTerm entries _ =>
    n.currentTerm ≤ term → n.prevLogOk prev prevTerm →
      ∀ j ∈ n.pending.keys, ¬ Conflicts (n.log.take (j + 1)) (prev + 1) entries
  | _ => True

/-- Only an `AppendEntries` has a condition. -/
instance (n : RaftNode) : (r : RaftRpc) → Decidable (n.KeepsPending r)
  | .appendEntries .. => inferInstanceAs (Decidable (_ → _ → _))
  | .requestVote .. | .requestVoteResp .. | .appendEntriesResp .. => isTrue trivial

/-- No step cuts a log below an index with a pending reply. -/
def RaftCluster.KeepsPending (s : RaftCluster) : Event → Prop
  | .recv k => ∀ c ∈ s.calls[k]?, (s.nodes c.callee).KeepsPending c.request
  | _ => True

/-- Only a request that arrives has a condition. -/
instance (s : RaftCluster) : (e : Event) → Decidable (s.KeepsPending e)
  | .recv _ => inferInstanceAs (Decidable (∀ c ∈ _, _))
  | .tick _ | .reply _ | .drop _ | .propose .. | .apply _ => isTrue trivial

/-! ## How pending replies change -/

namespace RaftNode

variable (n : RaftNode)

theorem pending_handleAppendResponse (peer : NodeId) (r : RaftRpc) :
    (n.handleAppendResponse peer r).pending = n.pending := by
  cases r with
  | appendEntriesResp term success m =>
    unfold handleAppendResponse
    dsimp only
    split
    · simp
    · split
      · rfl
      · split
        · unfold tryAdvanceCommit
          dsimp only
          split <;> rfl
        · rfl
  | _ => rfl

theorem pending_handleVoteResponse (r : RaftRpc) :
    (n.handleVoteResponse r).pending = n.pending := by
  rcases n.handleVoteResponse_vote r with ⟨T, h⟩ | h | ⟨-, -, h | ⟨-, h⟩⟩ <;> rw [h]
  · simp
  · rfl

/-- A merge that keeps pending replies keeps the entries they wait for. -/
theorem Merges.getElem?_log {n : RaftNode} {term : ℕ} {leaderId : NodeId} {prev prevTerm : ℕ}
    {entries : List LogEntry} {commit : ℕ} {r : RaftNode × RaftRpc}
    (h : n.Merges term prev prevTerm entries commit r)
    (hok : n.KeepsPending (.appendEntries term leaderId prev prevTerm entries commit))
    {j : ℕ} {ch : Chan} (hj : n.pending[j]? = some ch) (hlt : j < n.log.length) :
    r.1.log[j]? = n.log[j]? := by
  have hmem : j ∈ n.pending.keys := by
    rw [ExtTreeMap.mem_keys, ExtTreeMap.mem_iff_isSome_getElem?, hj]
    rfl
  have hno := hok h.term_le h.prevOk j hmem
  rw [h.log_eq]
  refine Splice.getElem?_splice LogEntry.term hlt entries (prev + 1) fun k x old hx hk hold => ?_
  by_contra hne
  refine hno ⟨k, (List.getElem?_eq_some_iff.mp hx).1, ?_⟩
  rw [List.getElem?_take_of_lt (by omega), hold, hx]
  exact ⟨rfl, fun heq => hne (Option.some.inj heq)⟩

end RaftNode

/-- Every pending reply waits for the entry that was pushed for it. -/
def RaftNode.Awaits (pushed : List (Chan × ℕ × LogEntry)) (n : RaftNode) : Prop :=
  ∀ (j : ℕ) (ch : Chan), n.pending[j]? = some ch →
    ∃ x, n.log[j]? = some x ∧ (ch, j, x) ∈ pushed

theorem RaftNode.Awaits.mono {pushed pushed' : List (Chan × ℕ × LogEntry)} {n n' : RaftNode}
    (h : n.Awaits pushed) (hpend : n'.pending = n.pending) (hlog : n'.log = n.log)
    (hsub : pushed ⊆ pushed') : n'.Awaits pushed' := by
  intro j ch hj
  rw [hpend] at hj
  obtain ⟨x, hx, hmem⟩ := h j ch hj
  exact ⟨x, hlog ▸ hx, hsub hmem⟩

namespace RaftCluster.NodeMove

variable {s : RaftCluster} {b : NodeId} {e : Event} {n : RaftNode}

theorem awaits (h : s.NodeMove b e n) (hok : s.KeepsPending e)
    {pushed : List (Chan × ℕ × LogEntry)} (hsub : s.pushed ⊆ pushed)
    (hnew : ∀ command, e = .propose b command → (s.nodes b).role = .leader →
      (s.opened, (s.nodes b).log.length, ⟨(s.nodes b).currentTerm, command⟩) ∈ pushed)
    (hold : (s.nodes b).Awaits s.pushed) : n.Awaits pushed := by
  cases h with
  | stay | elect => exact hold.mono rfl rfl hsub
  | grant =>
    obtain ⟨-, hd, -⟩ := RaftNode.handleRequestVote_spec (s.nodes b) rfl
    exact hold.mono hd.pending_eq hd.log_eq hsub
  | @append k c term leaderId prev prevTerm entries commit hk hb hreply hidle hreq =>
    rcases (s.nodes b).handleAppendEntries_data rfl with ⟨hsame, -⟩ | hmerge
    · exact hold.mono hsame.pending_eq hsame.log_eq hsub
    · intro j ch hj
      rw [hmerge.pending_eq] at hj
      obtain ⟨x, hx, hmem⟩ := hold j ch hj
      have hkeeps := hok c hk
      rw [hreq, hb] at hkeeps
      refine ⟨x, ?_, hsub hmem⟩
      rw [hmerge.getElem?_log hkeeps hj (List.getElem?_eq_some_iff.mp hx).1, hx]
  | countVote =>
    exact hold.mono (RaftNode.pending_handleVoteResponse _ _)
      (RaftNode.log_handleVoteResponse _ _) hsub
  | countAppend =>
    exact hold.mono (RaftNode.pending_handleAppendResponse _ _ _)
      (RaftNode.log_handleAppendResponse _ _ _) hsub
  | @propose command hb hrole =>
    intro j ch hj
    simp only [RaftNode.appendProposal] at hj ⊢
    rw [ExtTreeMap.getElem?_insert] at hj
    split at hj
    · next heq =>
      obtain rfl : (s.nodes b).log.length = j := by simpa using heq
      obtain rfl := Option.some.inj hj
      exact ⟨_, List.getElem?_concat_length, hnew command rfl hrole⟩
    · obtain ⟨x, hx, hmem⟩ := hold j ch hj
      refine ⟨x, ?_, hsub hmem⟩
      rw [List.getElem?_append_left (List.getElem?_eq_some_iff.mp hx).1, hx]
  | apply hlt hr =>
    obtain ⟨entry, -, rfl⟩ := Option.map_eq_some_iff.mp hr
    intro j ch hj
    rw [ExtTreeMap.getElem?_erase] at hj
    split at hj
    · cases hj
    · obtain ⟨x, hx, hmem⟩ := hold j ch hj
      exact ⟨x, hx, hsub hmem⟩

end RaftCluster.NodeMove

/-! ## The invariant -/

/-- Whoever waits at an index proposed the entry there. -/
structure ReplyInv (s : RaftCluster) : Prop where
  awaits : ∀ a ∈ s.members, (s.nodes a).Awaits s.pushed
  answered : ∀ ch i x, (ch, .applied i x) ∈ s.answered → (ch, i, x) ∈ s.pushed
  /-- Each channel is opened for one proposal. -/
  opened : ∀ ch i x, (ch, i, x) ∈ s.pushed → ch < s.opened
  unique : (s.pushed.map Prod.fst).Nodup

namespace ReplyInv

variable {s t : RaftCluster} {e : Event}

theorem start (h : s.Start) : ReplyInv s where
  awaits := by
    intro a ha j ch hj
    obtain ⟨peers, -, -, hn⟩ := h.started a ha
    rw [hn] at hj
    simp [startRaft] at hj
  answered := by simp [h.answered]
  opened := by simp [h.pushed]
  unique := by simp [h.pushed]

/-- A step that pushes and answers nothing. -/
theorem sameReplies (inv : ReplyInv s) (h : s.Move e t) (hok : s.KeepsPending e)
    (hp : t.pushed = s.pushed) (ha : t.answered = s.answered) (ho : t.opened = s.opened)
    (hne : ∀ b command, e ≠ .propose b command) : ReplyInv t where
  awaits := by
    intro a hat
    rw [hp]
    exact (h.node a).awaits hok (List.Subset.refl _) (fun command he => absurd he (hne a command))
      (inv.awaits a (h.members_eq ▸ hat))
  answered := by
    rw [hp, ha]
    exact inv.answered
  opened := by
    rw [hp, ho]
    exact inv.opened
  unique := hp ▸ inv.unique

theorem step (inv : ReplyInv s) (h : s.Move e t) (hok : s.KeepsPending e) : ReplyInv t := by
  have hnode := h.node
  have hm := h.members_eq
  cases hmove : h with
  | heartbeat | elect | recvVote | recvAppend | replyVote | replyAppend | drop =>
    exact inv.sameReplies h hok rfl rfl rfl (fun _ _ he => by cases he)
  | @accept a command ha hrole =>
    constructor
    · intro b hb
      refine (hnode b).awaits hok (fun y hy => List.mem_append_left _ hy) ?_
        (inv.awaits b (hm ▸ hb))
      rintro command' he -
      obtain ⟨rfl, rfl⟩ : a = b ∧ command = command' := by simpa using he
      exact List.mem_append_right _ (List.mem_singleton.mpr rfl)
    · intro ch i x hx
      exact List.mem_append_left _ (inv.answered ch i x hx)
    · intro ch i x hx
      rcases List.mem_append.mp hx with hx | hx
      · exact (inv.opened ch i x hx).trans (Nat.lt_succ_self _)
      · obtain ⟨rfl, -⟩ : ch = s.opened ∧ _ := by simpa using hx
        exact Nat.lt_succ_self _
    · show ((s.pushed ++ [_]).map Prod.fst).Nodup
      rw [List.map_append, List.nodup_append]
      refine ⟨inv.unique, by simp, ?_⟩
      rintro ch hch ch' hch' rfl
      obtain ⟨⟨ch', i, x⟩, hx, rfl⟩ := List.mem_map.mp hch
      obtain rfl : ch' = s.opened := by simpa using hch'
      exact absurd (inv.opened _ i x hx) (lt_irrefl _)
  | @refuse a command ha hrole =>
    constructor
    · intro b hb
      refine (hnode b).awaits hok (List.Subset.refl _) ?_ (inv.awaits b (hm ▸ hb))
      intro command' he hlead
      obtain ⟨rfl, -⟩ : a = b ∧ command = command' := by simpa using he
      exact absurd hlead hrole
    · intro ch i x hx
      rcases List.mem_append.mp hx with hx | hx
      · exact inv.answered ch i x hx
      · simp at hx
    · exact fun ch i x hx => (inv.opened ch i x hx).trans (Nat.lt_succ_self _)
    · exact inv.unique
  | @apply a r ha hlt hr =>
    obtain ⟨entry, hentry, rfl⟩ := Option.map_eq_some_iff.mp hr
    constructor
    · intro b hb
      exact (hnode b).awaits hok (List.Subset.refl _) (fun _ he => by cases he)
        (inv.awaits b (hm ▸ hb))
    · intro ch i x hx
      rcases List.mem_append.mp hx with hx | hx
      · exact inv.answered ch i x hx
      · -- the answer sent now : its channel was waiting for the entry just applied
        simp only [Option.mem_toList, Option.map_eq_some_iff, Prod.mk.injEq,
          Answer.applied.injEq] at hx
        obtain ⟨ch', hch, rfl, rfl, rfl⟩ := hx
        obtain ⟨y, hy, hmem⟩ := inv.awaits a ha _ _ hch
        rw [hentry] at hy
        exact Option.some.inj hy ▸ hmem
    · exact inv.opened
    · exact inv.unique

end ReplyInv

/-- In a run that cuts no log below a pending index, every answer to a proposal is the
result of the entry that was pushed for it, the only one pushed for its channel. -/
theorem reply_of_own_entry {s t : RaftCluster} (hs : s.Start)
    (ht : Runs.Run RaftCluster.step RaftCluster.KeepsPending s t) {ch : Chan} {i : ℕ}
    {x : LogEntry} (hx : (ch, .applied i x) ∈ t.answered) :
    (ch, i, x) ∈ t.pushed ∧ ∀ j y, (ch, j, y) ∈ t.pushed → j = i ∧ y = x := by
  have inv : ReplyInv t := ht.invariant
    (fun u e v hu hok hstep => hu.step (RaftCluster.move_of_step hstep) hok) (.start hs)
  have hmem := inv.answered ch i x hx
  refine ⟨hmem, fun j y hy => ?_⟩
  have := List.inj_on_of_nodup_map inv.unique hy hmem rfl
  simpa using this

/-- A leader answers the proposal it has committed. -/
theorem reply_of_own_entry_two : ∃ t : RaftCluster,
    Runs.Run RaftCluster.step RaftCluster.KeepsPending (RaftCluster.init ["a", "b"]) t ∧
      (0, .applied 1 ⟨1, [120]⟩) ∈ t.answered ∧ (0, 1, ⟨1, [120]⟩) ∈ t.pushed := by
  have hs : (RaftCluster.init ["a", "b"]).Start :=
    RaftCluster.start_init (by decide) (by decide)
  have hrun : (Runs.exec RaftCluster.step RaftCluster.KeepsPending (RaftCluster.init ["a", "b"])
      [.tick "a", .recv 0, .reply 0, .propose "a" [120], .recv 0, .reply 0, .apply "a"]).any
      (fun t => decide ((0, .applied 1 ⟨1, [120]⟩) ∈ t.answered)) = true := by
    decide
  obtain ⟨t, ht, hp⟩ := Runs.exists_run_of_exec hrun
  have hx := of_decide_eq_true hp
  exact ⟨t, ht, hx, (reply_of_own_entry hs ht hx).1⟩

/-- Without the condition a client is told of another's command. `a` appends the proposal
of channel 0 at index 1 in term 1; `b`, the leader of term 2, replaces the entry there by
its own and commits it; `a` applies that and answers channel 0. -/
theorem reply_of_other_command : ∃ t : RaftCluster,
    (RaftCluster.init ["a", "b", "c"]).Start ∧ (RaftCluster.init ["a", "b", "c"]).Reaches t ∧
      (0, 1, ⟨1, [120]⟩) ∈ t.pushed ∧ (0, .applied 1 ⟨2, [121]⟩) ∈ t.answered ∧
      (0, 1, ⟨2, [121]⟩) ∉ t.pushed := by
  have hrun : (Runs.exec RaftCluster.step (fun _ _ => True) (RaftCluster.init ["a", "b", "c"])
      [.tick "a", .recv 0, .reply 0, .drop 0, .propose "a" [120], .drop 0, .drop 0,
        .tick "b", .recv 1, .reply 1, .drop 0, .propose "b" [121], .recv 0, .reply 0,
        .apply "b", .tick "b", .recv 1, .apply "a"]).any (fun t =>
          decide ((0, 1, ⟨1, [120]⟩) ∈ t.pushed ∧ (0, .applied 1 ⟨2, [121]⟩) ∈ t.answered ∧
            (0, 1, ⟨2, [121]⟩) ∉ t.pushed)) = true := by
    decide
  obtain ⟨t, ht, hp⟩ := Runs.exists_run_of_exec hrun
  exact ⟨t, RaftCluster.start_init (by decide) (by decide), ht, of_decide_eq_true hp⟩

end LoonyRedis
