import LoonyRedis.Health
import LoonyRedis.Lib.Runs
import LoonyRedis.SlotTables
import Mathlib.Logic.Function.Basic

/-!
# The heartbeat task

`run_heartbeat_task` goes in rounds. A round takes the node list, aligns the health table with
it and then has a turn for each peer : it skips one that is held as failed, and pings the others.
An answer marks the peer alive, a miss is recorded, and a miss that makes the peer failed starts
`auto_heal`, which takes the peer out of the node list.

Each access to the table and to the configuration is a step; gossip and changes of membership
fall between them. Whatever they are, `auto_heal` is called for a peer only after three pings of
it in three rounds in a row that were not answered (`heal_after_three_misses`), and then the peer
is left alone, neither pinged nor healed away again, until it has left the node list
(`healed_peer_left_alone`). So the miss counter is never above three, although a miss of a peer
that gossip has just made failed takes it back to suspected.
-/

namespace LoonyRedis

open Std

/-! ## The task -/

/-- Whether the table holds a peer as failed. -/
def HealthTable.isFailed (t : HealthTable) (addr : String) : Bool :=
  t[addr]?.any fun h => h.state = .failed

/-- Where the heartbeat task stands. -/
inductive HeartbeatPhase
  | sleeping
  /-- The node list is read. -/
  | listed (peers : List String)
  /-- The peers whose turn is to come. -/
  | round (peers : List String)
  | pinging (peer : String) (rest : List String)
  | answered (peer : String) (rest : List String)
  | unanswered (peer : String) (rest : List String)
  /-- `auto_heal` is called. -/
  | healing (peer : String) (rest : List String)
  /-- It has read the node list and taken out the failed node. -/
  | healed (nodes rest : List String)
  deriving DecidableEq

namespace HeartbeatPhase

/-- The peers whose turn is not over. -/
def pending : HeartbeatPhase → List String
  | sleeping => []
  | listed peers | round peers => peers
  | pinging peer rest | answered peer rest | unanswered peer rest => peer :: rest
  | healing _ rest | healed _ rest => rest

/-- The peers that have not been pinged in the round. -/
def unpinged : HeartbeatPhase → List String
  | sleeping => []
  | listed peers | round peers => peers
  | pinging peer rest => peer :: rest
  | answered _ rest | unanswered _ rest | healing _ rest | healed _ rest => rest

/-- The peer whose ping is sent and not recorded yet. -/
def inFlight : HeartbeatPhase → Option String
  | pinging peer _ | answered peer _ | unanswered peer _ => some peer
  | _ => none

/-- The table is not aligned with the node list yet. -/
def isListed : HeartbeatPhase → Bool
  | listed _ => true
  | _ => false

/-- The branches of `try_ping`. -/
def pinged (peer : String) (rest : List String) : Bool → HeartbeatPhase
  | true => answered peer rest
  | false => unanswered peer rest

section pinged

variable (peer : String) (rest : List String) (b : Bool)

@[simp] theorem pending_pinged : (pinged peer rest b).pending = peer :: rest := by
  cases b <;> rfl

@[simp] theorem unpinged_pinged : (pinged peer rest b).unpinged = rest := by
  cases b <;> rfl

@[simp] theorem inFlight_pinged : (pinged peer rest b).inFlight = some peer := by
  cases b <;> rfl

@[simp] theorem isListed_pinged : (pinged peer rest b).isListed = false := by
  cases b <;> rfl

end pinged

end HeartbeatPhase

/-- A node with its heartbeat task, and the rounds so far. -/
structure Heartbeats where
  myAddr : String
  config : ClusterConfig
  table : HealthTable
  phase : HeartbeatPhase
  /-- The number of the round, from 1 on. -/
  round : ℕ
  /-- The node list of each round. -/
  lists : ℕ → List String
  /-- The pings : round, peer and whether it was answered. -/
  pings : List (ℕ × String × Bool)
  /-- The calls of `auto_heal` : round and peer. -/
  heals : List (ℕ × String)

/-- The steps of the task, and of others on the same node. -/
inductive HeartbeatEvent
  /-- The sleep is over. -/
  | wake
  /-- Align the table with the node list. -/
  | sync
  /-- The turn of the next peer, or the end of the round. -/
  | turn
  | ping (answered : Bool)
  /-- Record the result of the ping. -/
  | record
  /-- `auto_heal` reads the node list. -/
  | heal
  /-- `auto_heal` replaces the configuration. -/
  | commit
  /-- Gossip is received. -/
  | gossip (updates : List (String × NodeState))
  /-- A change of membership replaces the configuration. -/
  | reconfigure (nodes : List String)
  deriving DecidableEq

/-- The nodes without the failed one, if it is there and this node survives it. -/
def survivors (nodes : List String) (failedAddr myAddr : String) : Option (List String) :=
  if failedAddr ∉ nodes then none
  else
    let newNodes := nodes.filter (· ≠ failedAddr)
    if newNodes = [] then none
    else if myAddr ∉ newNodes then none
    else some newNodes

namespace Heartbeats

/-- The node starts with the nodes of its command line, its peers alive. -/
def init (myAddr : String) (nodes : List String) (config : ClusterConfig) : Heartbeats where
  myAddr := myAddr
  config := config
  table := .new (nodes.filter (· ≠ myAddr))
  phase := .sleeping
  round := 0
  lists := fun _ => []
  pings := []
  heals := []

variable (s : Heartbeats)

/-- Replace the configuration, if there is one for these nodes. -/
def setConfig (nodes : List String) : Heartbeats :=
  match ClusterConfig.new nodes s.myAddr with
  | .ok config => { s with config := config }
  | .error _ => s

/-- What each event does, where the task stands so that it can happen. -/
def step : HeartbeatEvent → Option Heartbeats
  | .wake =>
    match s.phase with
    | .sleeping => some { s with
        phase := .listed s.config.nodes
        round := s.round + 1
        lists := Function.update s.lists (s.round + 1) s.config.nodes }
    | _ => none
  | .sync =>
    match s.phase with
    | .listed peers => some { s with table := s.table.syncNodes peers, phase := .round peers }
    | _ => none
  | .turn =>
    match s.phase with
    | .round [] => some { s with phase := .sleeping }
    | .round (peer :: rest) =>
      if peer = s.myAddr ∨ s.table.isFailed peer then some { s with phase := .round rest }
      else some { s with phase := .pinging peer rest }
    | _ => none
  | .ping answered =>
    match s.phase with
    | .pinging peer rest => some { s with
        phase := .pinged peer rest answered
        pings := s.pings ++ [(s.round, peer, answered)] }
    | _ => none
  | .record =>
    match s.phase with
    | .answered peer rest => some { s with table := s.table.markAlive peer, phase := .round rest }
    | .unanswered peer rest =>
      let missed := s.table.recordMiss peer
      if missed.2 = .failed then some { s with
        table := missed.1, phase := .healing peer rest, heals := s.heals ++ [(s.round, peer)] }
      else some { s with table := missed.1, phase := .round rest }
    | _ => none
  | .heal =>
    match s.phase with
    | .healing peer rest =>
      match survivors s.config.nodes peer s.myAddr with
      | some nodes => some { s with phase := .healed nodes rest }
      | none => some { s with phase := .round rest }
    | _ => none
  | .commit =>
    match s.phase with
    | .healed nodes rest => some { s.setConfig nodes with phase := .round rest }
    | _ => none
  | .gossip updates => some { s with table := s.table.applyGossip updates }
  | .reconfigure nodes => some (s.setConfig nodes)

/-- A reachable state, whatever happens in between. -/
abbrev Reaches (s t : Heartbeats) : Prop := Runs.Run step (fun _ _ => True) s t

end Heartbeats

/-! ## What the table has -/

namespace HealthTable

variable {t : HealthTable} {a : String}

/-- `is_failed` asks for the state of the address, and an unknown address is alive. -/
theorem isFailed_iff : t.isFailed a = true ↔ (t.entry a).state = .failed := by
  rw [isFailed, entry]
  cases t[a]? with
  | none => simp [defaultHealth]
  | some h => simp

/-- `sync_nodes` keeps the health of a listed address and forgets the others. -/
theorem entry_syncNodes (addrs : List String) : (t.syncNodes addrs).entry a =
    if a ∈ addrs then t.entry a else defaultHealth := by
  rw [entry, getElem?_syncNodes]
  split <;> rfl

/-- A new table knows nothing bad of anybody. -/
theorem entry_new (peers : List String) : (new peers).entry a = defaultHealth := by
  have hnew : ∀ (peers : List String) (t : HealthTable), t.entry a = defaultHealth →
      entry (peers.foldl (fun t peer => t.insert peer defaultHealth) t) a = defaultHealth := by
    intro peers
    induction peers with
    | nil => exact fun _ ht => ht
    | cons peer peers ih =>
      intro t ht
      refine ih _ ?_
      rw [entry, FinMap.getElem?_insert]
      split
      · rfl
      · exact ht
  refine hnew peers ∅ ?_
  rw [entry, ExtTreeMap.getElem?_empty]
  rfl

/-- A failed peer stays failed. -/
theorem failed_applyGossip (updates : List (String × NodeState)) (t : HealthTable)
    (h : (t.entry a).state = .failed) : ((t.applyGossip updates).entry a).state = .failed :=
  (NodeState.le_failed _).antisymm (h ▸ le_applyGossip updates t)

/-- One more miss, below the limit of the counter. -/
theorem missedOnce_of_le {h : NodeHealth} (hle : h.missed.toNat ≤ 2) :
    (missedOnce h).missed.toNat = h.missed.toNat + 1 ∧
      ((missedOnce h).state = .failed ↔ h.missed.toNat = 2) := by
  refine ⟨?_, ?_⟩
  · have hone : (1 : UInt32).toNat = 1 := rfl
    rw [missedOnce, UInt32.toNat_add, hone]
    omega
  · rw [missedOnce_failed]
    omega

end HealthTable

/-! ## The invariant -/

namespace Heartbeats

variable {s t : Heartbeats} {e : HeartbeatEvent}

/-- The peer was pinged in the `k` rounds up to `n`, and did not answer. -/
def MissedIn (s : Heartbeats) (p : String) (k n : ℕ) : Prop :=
  k ≤ n ∧ ∀ i < k, (n - i, p, false) ∈ s.pings

/-- Pings that are recorded stay recorded. -/
theorem MissedIn.mono {p : String} {k n : ℕ} (h : s.MissedIn p k n) (hpings : s.pings ⊆ t.pings) :
    t.MissedIn p k n :=
  ⟨h.1, fun i hi => hpings (h.2 i hi)⟩

/-- One more missed ping extends a streak by a round. -/
theorem MissedIn.succ {p : String} {k n : ℕ} (h : s.MissedIn p k n)
    (hmiss : (n + 1, p, false) ∈ s.pings) : s.MissedIn p (k + 1) (n + 1) := by
  refine ⟨Nat.succ_le_succ h.1, fun i hi => ?_⟩
  cases i with
  | zero => exact hmiss
  | succ i =>
    rw [Nat.add_sub_add_right]
    exact h.2 i (Nat.lt_of_succ_lt_succ hi)

/-- The last round in which the turn of the peer was over. -/
def lastTurn (s : Heartbeats) (p : String) : ℕ :=
  if s.phase.isListed ∨ p ∈ s.phase.pending then s.round - 1 else s.round

/-- The counter of a peer is that of the last rounds, or the peer is failed and waits for its
removal. -/
def Counted (s : Heartbeats) (p : String) : Prop :=
  (s.table.entry p).missed = 0 ∨
  (s.table.entry p).state = .failed ∧ s.phase.inFlight ≠ some p ∨
  (s.table.entry p).missed.toNat ≤ 2 ∧
    s.MissedIn p (s.table.entry p).missed.toNat (s.lastTurn p)

/-- Where the task is in its rounds. -/
structure RoundInv (s : Heartbeats) : Prop where
  nodes : s.config.nodes.Nodup
  started : s.phase ≠ .sleeping → 1 ≤ s.round
  pending_nodup : s.phase.pending.Nodup
  pending_sub : ∀ p ∈ s.phase.pending, p ∈ s.lists s.round
  listed : ∀ peers, s.phase = .listed peers → s.lists s.round = peers
  pings : ∀ n p b, (n, p, b) ∈ s.pings → 1 ≤ n ∧ n ≤ s.round ∧ p ∈ s.lists n
  fresh : ∀ p ∈ s.phase.unpinged, ∀ b, (s.round, p, b) ∉ s.pings
  /-- A peer is pinged once in a round. -/
  once : ∀ n p b b', (n, p, b) ∈ s.pings → (n, p, b') ∈ s.pings → b = b'
  missed : ∀ p rest, s.phase = .unanswered p rest → (s.round, p, false) ∈ s.pings

/-- The counters are the pings missed in a row, and no peer was healed away before three of
them. -/
structure CountInv (s : Heartbeats) : Prop where
  counted : ∀ p, s.Counted p
  mine : (s.table.entry s.myAddr).missed = 0 ∧ s.phase.inFlight ≠ some s.myAddr
  heals : ∀ n p, (n, p) ∈ s.heals → n ≤ s.round ∧ s.MissedIn p 3 n

/-- Since round `n` the peer is failed and was not pinged, or it was missing from a node list
before it was pinged again. -/
def Quiet (s : Heartbeats) (n : ℕ) (p : String) : Prop :=
  (s.phase.isListed → n < s.round) ∧
  ((s.table.entry p).state = .failed ∧ s.phase.inFlight ≠ some p ∧
      (∀ m b, (m, p, b) ∈ s.pings → m ≤ n) ∨
    ∃ j, n < j ∧ j ≤ s.round ∧ p ∉ s.lists j ∧ ∀ m b, (m, p, b) ∈ s.pings → n < m → j < m)

/-- `ClusterConfig::new` lists no address twice. -/
theorem nodup_of_new {nodes : List String} {a : String} {config : ClusterConfig}
    (h : ClusterConfig.new nodes a = .ok config) : config.nodes.Nodup := by
  unfold ClusterConfig.new at h
  dsimp only at h
  split at h
  · cases h
  · split at h
    · cases h
    · split at h
      · cases h
      · obtain rfl := Except.ok.inj h
        exact nodup_sortNodes nodes

/-- A changed membership lists no address twice, if the old one did not. -/
theorem nodup_setConfig (h : s.config.nodes.Nodup) (nodes : List String) :
    (s.setConfig nodes).config.nodes.Nodup := by
  unfold setConfig
  split
  · next config hconfig => exact nodup_of_new hconfig
  · exact h

/-- Only the configuration differs. -/
theorem setConfig_eq (s : Heartbeats) (nodes : List String) :
    s.setConfig nodes = { s with config := (s.setConfig nodes).config } := by
  unfold setConfig
  split <;> rfl

/-- What a step can do. -/
inductive Move (s : Heartbeats) : Heartbeats → Prop
  | wake (hphase : s.phase = .sleeping) : Move s { s with
      phase := .listed s.config.nodes
      round := s.round + 1
      lists := Function.update s.lists (s.round + 1) s.config.nodes }
  | sync {peers : List String} (hphase : s.phase = .listed peers) :
    Move s { s with table := s.table.syncNodes peers, phase := .round peers }
  | rest (hphase : s.phase = .round []) : Move s { s with phase := .sleeping }
  | skip {peer : String} {rest : List String} (hphase : s.phase = .round (peer :: rest))
    (hskip : peer = s.myAddr ∨ (s.table.entry peer).state = .failed) :
    Move s { s with phase := .round rest }
  | send {peer : String} {rest : List String} (hphase : s.phase = .round (peer :: rest))
    (hmine : peer ≠ s.myAddr) (hstate : (s.table.entry peer).state ≠ .failed) :
    Move s { s with phase := .pinging peer rest }
  | ping {peer : String} {rest : List String} (hphase : s.phase = .pinging peer rest) (b : Bool) :
    Move s { s with
      phase := .pinged peer rest b
      pings := s.pings ++ [(s.round, peer, b)] }
  | alive {peer : String} {rest : List String} (hphase : s.phase = .answered peer rest) :
    Move s { s with table := s.table.markAlive peer, phase := .round rest }
  | miss {peer : String} {rest : List String} (hphase : s.phase = .unanswered peer rest)
    (hstate : (HealthTable.missedOnce (s.table.entry peer)).state ≠ .failed) :
    Move s { s with table := s.table.update peer HealthTable.missedOnce, phase := .round rest }
  | fail {peer : String} {rest : List String} (hphase : s.phase = .unanswered peer rest)
    (hstate : (HealthTable.missedOnce (s.table.entry peer)).state = .failed) :
    Move s { s with
      table := s.table.update peer HealthTable.missedOnce
      phase := .healing peer rest
      heals := s.heals ++ [(s.round, peer)] }
  | heal {peer : String} {nodes rest : List String} (hphase : s.phase = .healing peer rest) :
    Move s { s with phase := .healed nodes rest }
  | giveUp {peer : String} {rest : List String} (hphase : s.phase = .healing peer rest) :
    Move s { s with phase := .round rest }
  | commit {nodes rest : List String} (hphase : s.phase = .healed nodes rest) :
    Move s { s with config := (s.setConfig nodes).config, phase := .round rest }
  | gossip (updates : List (String × NodeState)) :
    Move s { s with table := s.table.applyGossip updates }
  | reconfigure (nodes : List String) : Move s { s with config := (s.setConfig nodes).config }

/-- Every step is one of the moves of the relation. -/
theorem move_of_step (h : s.step e = some t) : Move s t := by
  cases e with
  | wake =>
    simp only [step] at h
    split at h
    · next hphase =>
      obtain rfl := Option.some.inj h
      exact .wake hphase
    · cases h
  | sync =>
    simp only [step] at h
    split at h
    · next hphase =>
      obtain rfl := Option.some.inj h
      exact .sync hphase
    · cases h
  | turn =>
    simp only [step] at h
    split at h
    · next hphase =>
      obtain rfl := Option.some.inj h
      exact .rest hphase
    · next peer rest hphase =>
      split at h
      · next hskip =>
        obtain rfl := Option.some.inj h
        exact .skip hphase (hskip.imp_right HealthTable.isFailed_iff.mp)
      · next hskip =>
        obtain rfl := Option.some.inj h
        rw [not_or] at hskip
        exact .send hphase hskip.1 fun hstate => hskip.2 (HealthTable.isFailed_iff.mpr hstate)
    · cases h
  | ping b =>
    simp only [step] at h
    split at h
    · next hphase =>
      obtain rfl := Option.some.inj h
      exact .ping hphase b
    · cases h
  | record =>
    simp only [step] at h
    split at h
    · next hphase =>
      obtain rfl := Option.some.inj h
      exact .alive hphase
    · next peer rest hphase =>
      split at h
      · next hstate =>
        obtain rfl := Option.some.inj h
        exact .fail hphase hstate
      · next hstate =>
        obtain rfl := Option.some.inj h
        exact .miss hphase hstate
    · cases h
  | heal =>
    simp only [step] at h
    split at h
    · next hphase =>
      split at h
      · obtain rfl := Option.some.inj h
        exact .heal hphase
      · obtain rfl := Option.some.inj h
        exact .giveUp hphase
    · cases h
  | commit =>
    simp only [step] at h
    split at h
    · next nodes rest hphase =>
      obtain rfl := Option.some.inj h
      rw [setConfig_eq]
      exact .commit hphase
    · cases h
  | gossip updates =>
    obtain rfl := Option.some.inj h
    exact .gossip updates
  | reconfigure nodes =>
    obtain rfl := Option.some.inj h
    rw [setConfig_eq]
    exact .reconfigure nodes

namespace RoundInv

/-- The round goes on with a part of the peers, and nobody is pinged. -/
theorem goOn (inv : RoundInv s) {phase : HeartbeatPhase} {table : HealthTable}
    {config : ClusterConfig} {heals : List (ℕ × String)} (hnodes : config.nodes.Nodup)
    (hround : phase ≠ .sleeping → 1 ≤ s.round) (hpending : phase.pending.Sublist s.phase.pending)
    (hunpinged : phase.unpinged ⊆ s.phase.unpinged)
    (hlisted : ∀ peers, phase = .listed peers → s.phase = .listed peers)
    (hmissed : ∀ p rest, phase = .unanswered p rest → s.phase = .unanswered p rest) :
    RoundInv { s with phase := phase, table := table, config := config, heals := heals } where
  nodes := hnodes
  started := hround
  pending_nodup := inv.pending_nodup.sublist hpending
  pending_sub := fun p hp => inv.pending_sub p (hpending.subset hp)
  listed := fun peers hphase => inv.listed peers (hlisted peers hphase)
  pings := inv.pings
  fresh := fun p hp => inv.fresh p (hunpinged hp)
  once := inv.once
  missed := fun p rest hphase => inv.missed p rest (hmissed p rest hphase)

/-- A step keeps what is known of the rounds. -/
theorem step (inv : RoundInv s) (h : Move s t) : RoundInv t := by
  have hround {phase : HeartbeatPhase} (hphase : s.phase = phase) (hne : phase ≠ .sleeping) :
      1 ≤ s.round := inv.started (hphase ▸ hne)
  cases h with
  | wake hphase =>
    have hlist : Function.update s.lists (s.round + 1) s.config.nodes (s.round + 1) =
        s.config.nodes := Function.update_self ..
    refine ⟨inv.nodes, fun _ => Nat.le_add_left _ _, inv.nodes, ?_, ?_, ?_, ?_, inv.once, nofun⟩
    · intro p hp
      change p ∈ Function.update s.lists (s.round + 1) s.config.nodes (s.round + 1)
      rwa [hlist]
    · intro peers hphase
      obtain rfl := HeartbeatPhase.listed.inj hphase
      exact hlist
    · intro n p b hping
      obtain ⟨hone, hle, hlist⟩ := inv.pings n p b hping
      refine ⟨hone, hle.trans (Nat.le_succ _), ?_⟩
      change p ∈ Function.update s.lists (s.round + 1) s.config.nodes n
      rwa [Function.update_of_ne (by omega)]
    · intro p hp b hping
      exact absurd (inv.pings _ p b hping).2.1 (Nat.not_succ_le_self _)
  | sync hphase =>
    refine inv.goOn inv.nodes (fun _ => hround hphase nofun) ?_ ?_ nofun nofun <;> rw [hphase]
    · exact List.Sublist.refl _
    · exact List.Subset.refl _
  | rest hphase =>
    exact inv.goOn inv.nodes (fun hne => absurd rfl hne) (List.nil_sublist _) (List.nil_subset _)
      nofun nofun
  | skip hphase =>
    refine inv.goOn inv.nodes (fun _ => hround hphase nofun) ?_ ?_ nofun nofun <;> rw [hphase]
    · exact List.sublist_cons_self _ _
    · exact List.subset_cons_self _ _
  | send hphase =>
    refine inv.goOn inv.nodes (fun _ => hround hphase nofun) ?_ ?_ nofun nofun <;> rw [hphase]
    · exact List.Sublist.refl _
    · exact List.Subset.refl _
  | @ping peer rest hphase b =>
    have hnodup : (peer :: rest).Nodup := by
      have hpending := inv.pending_nodup
      rwa [hphase] at hpending
    have hfresh : ∀ p ∈ peer :: rest, ∀ b', (s.round, p, b') ∉ s.pings := by
      have hunpinged := inv.fresh
      rwa [hphase] at hunpinged
    have hlist : ∀ p ∈ peer :: rest, p ∈ s.lists s.round := by
      have hsub := inv.pending_sub
      rwa [hphase] at hsub
    have hmem {x : ℕ × String × Bool} :
        x ∈ s.pings ++ [(s.round, peer, b)] ↔ x ∈ s.pings ∨ x = (s.round, peer, b) := by
      rw [List.mem_append, List.mem_singleton]
    refine ⟨inv.nodes, fun _ => hround hphase nofun, ?_, ?_, ?_, ?_, ?_, ?_, ?_⟩
    · rwa [HeartbeatPhase.pending_pinged]
    · rwa [HeartbeatPhase.pending_pinged]
    · intro peers hlisted
      cases b <;> cases hlisted
    · intro n p b' hping
      rcases hmem.mp hping with hping | heq
      · exact inv.pings n p b' hping
      · obtain ⟨rfl, rfl, rfl⟩ : n = s.round ∧ p = peer ∧ b' = b := by simpa using heq
        exact ⟨hround hphase nofun, le_rfl, hlist _ List.mem_cons_self⟩
    · intro p hp b' hping
      rw [HeartbeatPhase.unpinged_pinged] at hp
      rcases hmem.mp hping with hping | heq
      · exact hfresh p (List.mem_cons_of_mem _ hp) b' hping
      · obtain ⟨rfl, rfl⟩ : p = peer ∧ b' = b := by simpa using heq
        exact (List.nodup_cons.mp hnodup).1 hp
    · intro n p b₁ b₂ h₁ h₂
      rcases hmem.mp h₁ with hold₁ | hnew₁ <;> rcases hmem.mp h₂ with hold₂ | hnew₂
      · exact inv.once n p b₁ b₂ hold₁ hold₂
      · obtain ⟨rfl, rfl, -⟩ : n = s.round ∧ p = peer ∧ b₂ = b := by simpa using hnew₂
        exact absurd hold₁ (hfresh _ List.mem_cons_self b₁)
      · obtain ⟨rfl, rfl, -⟩ : n = s.round ∧ p = peer ∧ b₁ = b := by simpa using hnew₁
        exact absurd hold₂ (hfresh _ List.mem_cons_self b₂)
      · obtain ⟨-, -, rfl⟩ : n = s.round ∧ p = peer ∧ b₁ = b := by simpa using hnew₁
        obtain ⟨-, -, rfl⟩ : n = s.round ∧ p = peer ∧ b₂ = b₁ := by simpa using hnew₂
        rfl
    · intro p rest' hmissed
      cases b with
      | true => cases hmissed
      | false =>
        obtain ⟨rfl, rfl⟩ := HeartbeatPhase.unanswered.inj hmissed
        exact hmem.mpr (.inr rfl)
  | alive hphase =>
    refine inv.goOn inv.nodes (fun _ => hround hphase nofun) ?_ ?_ nofun nofun <;> rw [hphase]
    · exact List.sublist_cons_self _ _
    · exact List.Subset.refl _
  | miss hphase =>
    refine inv.goOn inv.nodes (fun _ => hround hphase nofun) ?_ ?_ nofun nofun <;> rw [hphase]
    · exact List.sublist_cons_self _ _
    · exact List.Subset.refl _
  | fail hphase =>
    refine inv.goOn inv.nodes (fun _ => hround hphase nofun) ?_ ?_ nofun nofun <;> rw [hphase]
    · exact List.sublist_cons_self _ _
    · exact List.Subset.refl _
  | heal hphase =>
    refine inv.goOn inv.nodes (fun _ => hround hphase nofun) ?_ ?_ nofun nofun <;> rw [hphase]
    · exact List.Sublist.refl _
    · exact List.Subset.refl _
  | giveUp hphase =>
    refine inv.goOn inv.nodes (fun _ => hround hphase nofun) ?_ ?_ nofun nofun <;> rw [hphase]
    · exact List.Sublist.refl _
    · exact List.Subset.refl _
  | commit hphase =>
    refine inv.goOn (nodup_setConfig inv.nodes _) (fun _ => hround hphase nofun) ?_ ?_ nofun
      nofun <;> rw [hphase]
    · exact List.Sublist.refl _
    · exact List.Subset.refl _
  | gossip updates =>
    exact inv.goOn inv.nodes inv.started (List.Sublist.refl _) (List.Subset.refl _)
      (fun _ hphase => hphase) fun _ _ hphase => hphase
  | reconfigure nodes =>
    exact inv.goOn (nodup_setConfig inv.nodes _) inv.started (List.Sublist.refl _)
      (List.Subset.refl _) (fun _ hphase => hphase) fun _ _ hphase => hphase

end RoundInv

/-! ## The counters -/

/-- The last turn of a peer depends on the round, the list and the peers still to come only. -/
theorem lastTurn_congr {p : String} (hround : t.round = s.round)
    (hlisted : t.phase.isListed = s.phase.isListed)
    (hpending : p ∈ t.phase.pending ↔ p ∈ s.phase.pending) : t.lastTurn p = s.lastTurn p := by
  simp only [lastTurn, hround, hlisted, hpending]

/-- A step that leaves the counter of the peer. -/
theorem Counted.keep {p : String} (h : s.Counted p)
    (hmissed : (t.table.entry p).missed = (s.table.entry p).missed)
    (hstate : (s.table.entry p).state = .failed → (t.table.entry p).state = .failed)
    (hflight : t.phase.inFlight = some p → s.phase.inFlight = some p)
    (hturn : t.lastTurn p = s.lastTurn p) (hpings : s.pings ⊆ t.pings) : t.Counted p := by
  unfold Counted
  rw [hmissed, hturn]
  rcases h with hzero | ⟨hfailed, hfree⟩ | ⟨hle, hin⟩
  · exact .inl hzero
  · exact .inr (.inl ⟨hstate hfailed, mt hflight hfree⟩)
  · exact .inr (.inr ⟨hle, hin.mono hpings⟩)

/-- The counter of a peer whose ping is not answered. -/
theorem Counted.miss {p : String} {rest : List String} (h : s.Counted p) (inv : RoundInv s)
    (hphase : s.phase = .unanswered p rest) :
    (s.table.entry p).missed.toNat ≤ 2 ∧
      s.MissedIn p ((s.table.entry p).missed.toNat + 1) s.round := by
  have hone : 1 ≤ s.round := inv.started (by rw [hphase]; nofun)
  have hmiss := inv.missed p rest hphase
  rcases h with hzero | ⟨-, hfree⟩ | ⟨hle, hin⟩
  · rw [hzero]
    refine ⟨Nat.zero_le _, hone, fun i hi => ?_⟩
    obtain rfl : i = 0 := Nat.lt_one_iff.mp hi
    exact hmiss
  · exact absurd (by rw [hphase]; rfl) hfree
  · have hturn : s.lastTurn p = s.round - 1 :=
      if_pos (.inr (by rw [hphase]; exact List.mem_cons_self))
    rw [hturn] at hin
    obtain ⟨n, hn⟩ : ∃ n, s.round = n + 1 := ⟨s.round - 1, (Nat.sub_add_cancel hone).symm⟩
    rw [hn] at hin hmiss ⊢
    exact ⟨hle, hin.succ hmiss⟩

namespace CountInv

/-- The turn of a peer is over. -/
theorem counted_round {peer : String} {rest : List String}
    (hcounted : ∀ p, s.Counted p) (hpending : s.phase.pending = peer :: rest)
    (hlisted : s.phase.isListed = false) (hphase : t.phase.pending = rest)
    (hlisted' : t.phase.isListed = false) (hflight : t.phase.inFlight = none)
    (hround : t.round = s.round) (hpings : t.pings = s.pings)
    (hentry : ∀ p ≠ peer, t.table.entry p = s.table.entry p) (hpeer : t.Counted peer) (p : String) :
    t.Counted p := by
  by_cases hp : p = peer
  · exact hp ▸ hpeer
  · refine (hcounted p).keep (by rw [hentry p hp]) (by rw [hentry p hp]; exact id) ?_ ?_ ?_
    · rw [hflight]
      nofun
    · refine lastTurn_congr hround (hlisted'.trans hlisted.symm) ?_
      rw [hphase, hpending, List.mem_cons, or_iff_right hp]
    · rw [hpings]
      exact List.Subset.refl _

/-- A node never pings itself. -/
theorem ne_myAddr (inv : CountInv s) {p : String} (h : s.phase.inFlight = some p) :
    p ≠ s.myAddr := fun heq => inv.mine.2 (heq ▸ h)

/-- A step keeps the counting of missed pings. -/
theorem step (inv : CountInv s) (hrounds : RoundInv s) (h : Move s t) : CountInv t := by
  have hlast {peer : String} {rest : List String} (hpending : s.phase.pending = peer :: rest)
      {phase : HeartbeatPhase} {table : HealthTable} {heals : List (ℕ × String)}
      (hphase : phase.pending = rest) (hlisted : phase.isListed = false) :
      lastTurn { s with phase := phase, table := table, heals := heals } peer = s.round := by
    have hnodup := hrounds.pending_nodup
    rw [hpending, List.nodup_cons] at hnodup
    refine if_neg ?_
    rw [hlisted, hphase]
    exact fun h => h.elim nofun hnodup.1
  cases h with
  | wake hphase =>
    refine ⟨fun p => ?_, ⟨inv.mine.1, nofun⟩, fun n p hheal => ?_⟩
    · refine (inv.counted p).keep rfl id nofun ?_ (List.Subset.refl _)
      simp [lastTurn, hphase, HeartbeatPhase.pending, HeartbeatPhase.isListed]
    · obtain ⟨hle, hin⟩ := inv.heals n p hheal
      exact ⟨hle.trans (Nat.le_succ _), hin⟩
  | @sync peers hphase =>
    have hentry := fun p => HealthTable.entry_syncNodes (t := s.table) (a := p) peers
    refine ⟨fun p => ?_, ⟨?_, nofun⟩, inv.heals⟩
    · by_cases hp : p ∈ peers
      · have heq := (hentry p).trans (if_pos hp)
        refine (inv.counted p).keep (congrArg NodeHealth.missed heq) ?_ nofun ?_
          (List.Subset.refl _)
        · exact fun hstate => (congrArg NodeHealth.state heq).trans hstate
        · simp [lastTurn, hphase, HeartbeatPhase.pending, HeartbeatPhase.isListed, hp]
      · exact .inl (congrArg NodeHealth.missed ((hentry p).trans (if_neg hp)))
    · rw [HealthTable.entry_syncNodes]
      split
      · exact inv.mine.1
      · rfl
  | rest hphase =>
    refine ⟨fun p => ?_, ⟨inv.mine.1, nofun⟩, inv.heals⟩
    refine (inv.counted p).keep rfl id nofun ?_ (List.Subset.refl _)
    exact lastTurn_congr rfl (by rw [hphase]; rfl) (by rw [hphase]; rfl)
  | @skip peer rest hphase hskip =>
    refine ⟨?_, ⟨inv.mine.1, nofun⟩, inv.heals⟩
    refine counted_round inv.counted (by rw [hphase]; rfl) (by rw [hphase]; rfl) rfl rfl rfl rfl rfl
      (fun _ _ => rfl) ?_
    rcases hskip with rfl | hfailed
    · exact .inl inv.mine.1
    · exact .inr (.inl ⟨hfailed, nofun⟩)
  | @send peer rest hphase hmine hstate =>
    refine ⟨fun p => ?_, ⟨inv.mine.1, ?_⟩, inv.heals⟩
    · have hturn : lastTurn { s with phase := .pinging peer rest } p = s.lastTurn p :=
        lastTurn_congr rfl (by rw [hphase]; rfl) (by rw [hphase]; rfl)
      rcases inv.counted p with hzero | ⟨hfailed, -⟩ | ⟨hle, hin⟩
      · exact .inl hzero
      · refine .inr (.inl ⟨hfailed, fun heq => hstate ?_⟩)
        rwa [Option.some.inj heq]
      · exact .inr (.inr ⟨hle, by rwa [hturn]⟩)
    · exact fun heq => hmine (Option.some.inj heq)
  | @ping peer rest hphase b =>
    have hpings : s.pings ⊆ s.pings ++ [(s.round, peer, b)] := List.subset_append_left _ _
    refine ⟨fun p => ?_, ⟨inv.mine.1, ?_⟩, ?_⟩
    · refine (inv.counted p).keep rfl id ?_ ?_ hpings
      · rw [HeartbeatPhase.inFlight_pinged, hphase]
        exact id
      · refine lastTurn_congr rfl ?_ ?_
        · rw [HeartbeatPhase.isListed_pinged, hphase]
          rfl
        · rw [HeartbeatPhase.pending_pinged, hphase]
          rfl
    · rw [HeartbeatPhase.inFlight_pinged]
      have hmine := inv.mine.2
      rwa [hphase] at hmine
    · exact fun n p hheal => (inv.heals n p hheal).imp_right fun hin => hin.mono hpings
  | @alive peer rest hphase =>
    have hmine : peer ≠ s.myAddr := inv.ne_myAddr (by rw [hphase]; rfl)
    refine ⟨?_, ⟨?_, nofun⟩, inv.heals⟩
    · refine counted_round inv.counted (by rw [hphase]; rfl) (by rw [hphase]; rfl) rfl rfl rfl rfl
        rfl (fun p hp => ?_) ?_
      · exact HealthTable.entry_update.trans (if_neg (Ne.symm hp))
      · exact .inl (congrArg NodeHealth.missed (HealthTable.entry_update.trans (if_pos rfl)))
    · rw [HealthTable.markAlive, HealthTable.entry_update, if_neg hmine]
      exact inv.mine.1
  | @miss peer rest hphase hstate =>
    obtain ⟨hle, hin⟩ := (inv.counted peer).miss hrounds hphase
    obtain ⟨hsucc, hfailed⟩ := HealthTable.missedOnce_of_le hle
    have hmine : peer ≠ s.myAddr := inv.ne_myAddr (by rw [hphase]; rfl)
    refine ⟨?_, ⟨?_, nofun⟩, inv.heals⟩
    · refine counted_round inv.counted (by rw [hphase]; rfl) (by rw [hphase]; rfl) rfl rfl rfl rfl
        rfl (fun p hp => HealthTable.entry_update.trans (if_neg (Ne.symm hp))) ?_
      have hlow : (s.table.entry peer).missed.toNat ≠ 2 := mt hfailed.mpr hstate
      refine .inr (.inr ?_)
      rw [hlast (by rw [hphase]; rfl) rfl rfl, HealthTable.entry_update, if_pos rfl, hsucc]
      exact ⟨by omega, hin⟩
    · rw [HealthTable.entry_update, if_neg hmine]
      exact inv.mine.1
  | @fail peer rest hphase hstate =>
    obtain ⟨hle, hin⟩ := (inv.counted peer).miss hrounds hphase
    have hmine : peer ≠ s.myAddr := inv.ne_myAddr (by rw [hphase]; rfl)
    refine ⟨?_, ⟨?_, nofun⟩, fun n p hheal => ?_⟩
    · refine counted_round inv.counted (by rw [hphase]; rfl) (by rw [hphase]; rfl) rfl rfl rfl rfl
        rfl (fun p hp => HealthTable.entry_update.trans (if_neg (Ne.symm hp))) ?_
      refine .inr (.inl ⟨?_, nofun⟩)
      rw [HealthTable.entry_update, if_pos rfl]
      exact hstate
    · rw [HealthTable.entry_update, if_neg hmine]
      exact inv.mine.1
    · rcases List.mem_append.mp hheal with hold | hnew
      · exact inv.heals n p hold
      · obtain ⟨rfl, rfl⟩ : n = s.round ∧ p = peer := by simpa using hnew
        have htwo := (HealthTable.missedOnce_of_le hle).2.mp hstate
        rw [htwo] at hin
        exact ⟨le_rfl, hin⟩
  | heal hphase =>
    refine ⟨fun p => (inv.counted p).keep rfl id nofun ?_ (List.Subset.refl _),
      ⟨inv.mine.1, nofun⟩, inv.heals⟩
    exact lastTurn_congr rfl (by rw [hphase]; rfl) (by rw [hphase]; rfl)
  | giveUp hphase =>
    refine ⟨fun p => (inv.counted p).keep rfl id nofun ?_ (List.Subset.refl _),
      ⟨inv.mine.1, nofun⟩, inv.heals⟩
    exact lastTurn_congr rfl (by rw [hphase]; rfl) (by rw [hphase]; rfl)
  | commit hphase =>
    refine ⟨fun p => (inv.counted p).keep rfl id nofun ?_ (List.Subset.refl _),
      ⟨inv.mine.1, nofun⟩, inv.heals⟩
    exact lastTurn_congr rfl (by rw [hphase]; rfl) (by rw [hphase]; rfl)
  | gossip updates =>
    have hmissed (p : String) :
        ((s.table.applyGossip updates).entry p).missed = (s.table.entry p).missed := by
      rw [HealthTable.entry_applyGossip]
    refine ⟨fun p => ?_, ⟨(hmissed _).trans inv.mine.1, inv.mine.2⟩, inv.heals⟩
    refine (inv.counted p).keep (hmissed p) (fun hfailed => ?_) id rfl (List.Subset.refl _)
    exact HealthTable.failed_applyGossip updates s.table hfailed
  | reconfigure nodes =>
    exact ⟨fun p => (inv.counted p).keep rfl id id rfl (List.Subset.refl _), inv.mine, inv.heals⟩

end CountInv

/-! ## After a removal -/

namespace Quiet

variable {n : ℕ} {p : String}

/-- A step in a round that pings nobody. -/
theorem keep (h : s.Quiet n p) (hlisted : t.phase.isListed → s.phase.isListed)
    (hround : t.round = s.round) (hlists : t.lists = s.lists) (hpings : t.pings = s.pings)
    (hfailed : (s.table.entry p).state = .failed → s.phase.inFlight ≠ some p →
      (t.table.entry p).state = .failed ∧ t.phase.inFlight ≠ some p) : t.Quiet n p := by
  unfold Quiet
  rw [hround, hlists, hpings]
  refine ⟨fun hl => h.1 (hlisted hl), h.2.imp_left fun hdown => ?_⟩
  obtain ⟨hstate, hflight, hlast⟩ := hdown
  exact ⟨(hfailed hstate hflight).1, (hfailed hstate hflight).2, hlast⟩

/-- A step keeps a peer quiet since the same round. -/
theorem step (h : s.Quiet n p) (hrounds : RoundInv s) (hle : n ≤ s.round) (hmove : Move s t) :
    t.Quiet n p := by
  cases hmove with
  | wake hphase =>
    refine ⟨fun _ => Nat.lt_succ_of_le hle, ?_⟩
    rcases h.2 with ⟨hstate, -, hlast⟩ | ⟨j, hnj, hj, hout, hlater⟩
    · exact .inl ⟨hstate, nofun, hlast⟩
    · refine .inr ⟨j, hnj, hj.trans (Nat.le_succ _), ?_, hlater⟩
      change p ∉ Function.update s.lists (s.round + 1) s.config.nodes j
      rwa [Function.update_of_ne (by omega)]
  | @sync peers hphase =>
    refine ⟨nofun, ?_⟩
    rcases h.2 with ⟨hstate, -, hlast⟩ | hout
    · by_cases hp : p ∈ peers
      · refine .inl ⟨?_, nofun, hlast⟩
        rw [HealthTable.entry_syncNodes, if_pos hp]
        exact hstate
      · -- The list of this round is the one without the peer.
        have hlist := hrounds.listed peers hphase
        refine .inr ⟨s.round, h.1 (by rw [hphase]; rfl), le_rfl, hlist ▸ hp, fun m b hping hm => ?_⟩
        exact absurd (hlast m b hping) (Nat.not_le_of_lt hm)
    · exact .inr hout
  | rest hphase => exact h.keep nofun rfl rfl rfl fun hstate _ => ⟨hstate, nofun⟩
  | skip hphase => exact h.keep nofun rfl rfl rfl fun hstate _ => ⟨hstate, nofun⟩
  | send hphase hmine hup =>
    refine h.keep nofun rfl rfl rfl fun hstate _ => ⟨hstate, fun heq => hup ?_⟩
    rwa [Option.some.inj heq]
  | @ping peer rest hphase b =>
    have hlist : peer ∈ s.lists s.round :=
      hrounds.pending_sub peer (by rw [hphase]; exact List.mem_cons_self)
    have hflight : s.phase.inFlight = some peer := by
      rw [hphase]
      rfl
    refine ⟨by rw [HeartbeatPhase.isListed_pinged]; nofun, ?_⟩
    rcases h.2 with ⟨hstate, hfree, hlast⟩ | ⟨j, hnj, hj, hout, hlater⟩
    · refine .inl ⟨hstate, ?_, fun m b' hping => ?_⟩
      · rw [HeartbeatPhase.inFlight_pinged, ← hflight]
        exact hfree
      · rcases List.mem_append.mp hping with hold | hnew
        · exact hlast m b' hold
        · obtain ⟨-, rfl, -⟩ : m = s.round ∧ p = peer ∧ b' = b := by simpa using hnew
          exact absurd hflight hfree
    · refine .inr ⟨j, hnj, hj, hout, fun m b' hping hm => ?_⟩
      rcases List.mem_append.mp hping with hold | hnew
      · exact hlater m b' hold hm
      · obtain ⟨rfl, rfl, -⟩ : m = s.round ∧ p = peer ∧ b' = b := by simpa using hnew
        exact hj.lt_of_ne fun heq => hout (heq ▸ hlist)
  | @alive peer rest hphase =>
    refine h.keep nofun rfl rfl rfl fun hstate hfree => ⟨?_, nofun⟩
    have hne : peer ≠ p := fun heq => hfree (by rw [hphase, heq]; rfl)
    rw [HealthTable.markAlive, HealthTable.entry_update, if_neg hne]
    exact hstate
  | @miss peer rest hphase =>
    refine h.keep nofun rfl rfl rfl fun hstate hfree => ⟨?_, nofun⟩
    have hne : peer ≠ p := fun heq => hfree (by rw [hphase, heq]; rfl)
    rw [HealthTable.entry_update, if_neg hne]
    exact hstate
  | @fail peer rest hphase =>
    refine h.keep nofun rfl rfl rfl fun hstate hfree => ⟨?_, nofun⟩
    have hne : peer ≠ p := fun heq => hfree (by rw [hphase, heq]; rfl)
    rw [HealthTable.entry_update, if_neg hne]
    exact hstate
  | heal hphase => exact h.keep nofun rfl rfl rfl fun hstate _ => ⟨hstate, nofun⟩
  | giveUp hphase => exact h.keep nofun rfl rfl rfl fun hstate _ => ⟨hstate, nofun⟩
  | commit hphase => exact h.keep nofun rfl rfl rfl fun hstate _ => ⟨hstate, nofun⟩
  | gossip updates =>
    exact h.keep id rfl rfl rfl fun hstate hfree =>
      ⟨HealthTable.failed_applyGossip updates s.table hstate, hfree⟩
  | reconfigure nodes => exact h.keep id rfl rfl rfl fun hstate hfree => ⟨hstate, hfree⟩

end Quiet

/-- `auto_heal` is called for a peer that has just become failed. -/
theorem heals_of_move (hmove : Move s t) {n : ℕ} {p : String} (h : (n, p) ∈ t.heals) :
    (n, p) ∈ s.heals ∨ n = t.round ∧ (t.table.entry p).state = .failed ∧
      t.phase.inFlight = none ∧ t.phase.isListed = false := by
  cases hmove with
  | @fail peer rest hphase hstate =>
    rcases List.mem_append.mp h with hold | hnew
    · exact .inl hold
    · obtain ⟨rfl, rfl⟩ : n = s.round ∧ p = peer := by simpa using hnew
      refine .inr ⟨rfl, ?_, rfl, rfl⟩
      rw [HealthTable.entry_update, if_pos rfl]
      exact hstate
  | _ => exact .inl h

/-! ## Runs -/

/-- The invariant of the runs. -/
structure Inv (s : Heartbeats) : Prop where
  rounds : RoundInv s
  counts : CountInv s
  quiet : ∀ n p, (n, p) ∈ s.heals → s.Quiet n p

/-- The task starts in its invariant, with the members of its configuration. -/
theorem Inv.start {myAddr : String} {nodes : List String} {config : ClusterConfig}
    (hconfig : ClusterConfig.new nodes myAddr = .ok config) : (init myAddr nodes config).Inv where
  rounds := ⟨nodup_of_new hconfig, fun hne => absurd rfl hne, List.nodup_nil, nofun, nofun, nofun,
    nofun, nofun, nofun⟩
  counts := by
    have hzero : ∀ p, ((init myAddr nodes config).table.entry p).missed = 0 := fun p =>
      congrArg NodeHealth.missed (HealthTable.entry_new _)
    exact ⟨fun p => .inl (hzero p), ⟨hzero _, nofun⟩, nofun⟩
  quiet := nofun

/-- A step keeps the invariant. -/
theorem Inv.step (inv : s.Inv) (h : s.step e = some t) : t.Inv := by
  have hmove := move_of_step h
  have hrounds := inv.rounds.step hmove
  refine ⟨hrounds, inv.counts.step inv.rounds hmove, fun n p hheal => ?_⟩
  rcases heals_of_move hmove hheal with hold | ⟨rfl, hstate, hfree, hlisted⟩
  · exact (inv.quiet n p hold).step inv.rounds (inv.counts.heals n p hold).1 hmove
  · refine ⟨by rw [hlisted]; nofun, .inl ⟨hstate, by rw [hfree]; nofun, fun m b hping => ?_⟩⟩
    exact (hrounds.pings m p b hping).2.1

/-- The invariant holds in every reachable state. -/
theorem Reaches.inv (h : Reaches s t) (hs : s.Inv) : t.Inv :=
  h.invariant (I := Inv) (fun _ _ _ hinv _ hstep => hinv.step hstep) hs

end Heartbeats

section Runs

variable {myAddr : String} {nodes : List String} {config : ClusterConfig} {s : Heartbeats}
  {n m : ℕ} {p : String} {b : Bool}

/-- A call of `auto_heal` comes after three pings of the peer in three rounds in a row that were
not answered, whatever gossip and changes of membership fall between them. -/
theorem heal_after_three_misses (hconfig : ClusterConfig.new nodes myAddr = .ok config)
    (hrun : (Heartbeats.init myAddr nodes config).Reaches s) (h : (n, p) ∈ s.heals) :
    3 ≤ n ∧ ∀ i < 3, p ∈ s.lists (n - i) ∧ (n - i, p, false) ∈ s.pings ∧
      (n - i, p, true) ∉ s.pings := by
  have inv := hrun.inv (.start hconfig)
  obtain ⟨-, hle, hmissed⟩ := inv.counts.heals n p h
  refine ⟨hle, fun i hi => ?_⟩
  have hping := hmissed i hi
  refine ⟨(inv.rounds.pings _ p _ hping).2.2, hping, fun hanswered => ?_⟩
  exact Bool.noConfusion (inv.rounds.once _ p _ _ hping hanswered)

/-- Three rounds of `a:1` in which `b:1` does not answer. -/
def threeMisses : List HeartbeatEvent :=
  let missed := [.wake, .sync, .turn, .turn, .ping false, .record]
  missed ++ .turn :: missed ++ .turn :: missed

theorem heal_after_three_misses_pair : ∃ s : Heartbeats,
    (Heartbeats.init "a:1" ["a:1", "b:1"] ⟨["a:1", "b:1"], 0⟩).Reaches s ∧
      ∀ i < 3, "b:1" ∈ s.lists (3 - i) ∧ (3 - i, "b:1", false) ∈ s.pings ∧
        (3 - i, "b:1", true) ∉ s.pings := by
  have hrun : ((Runs.exec Heartbeats.step (fun _ _ => True)
      (.init "a:1" ["a:1", "b:1"] ⟨["a:1", "b:1"], 0⟩) threeMisses).any fun s =>
        (3, "b:1") ∈ s.heals) = true := by decide +kernel
  obtain ⟨s, hs, hheal⟩ := Runs.exists_run_of_exec hrun
  exact ⟨s, hs, (heal_after_three_misses rfl hs (of_decide_eq_true hheal)).2⟩

/-- After a call of `auto_heal` the peer is not pinged again before it has been missing from a
node list. -/
theorem healed_peer_left_alone (hconfig : ClusterConfig.new nodes myAddr = .ok config)
    (hrun : (Heartbeats.init myAddr nodes config).Reaches s) (h : (n, p) ∈ s.heals)
    (hping : (m, p, b) ∈ s.pings) (hlater : n < m) : ∃ j, n < j ∧ j < m ∧ p ∉ s.lists j := by
  have inv := hrun.inv (.start hconfig)
  rcases (inv.quiet n p h).2 with ⟨-, -, hlast⟩ | ⟨j, hnj, -, hout, hpinged⟩
  · exact absurd (hlast m b hping) (Nat.not_le_of_lt hlater)
  · exact ⟨j, hnj, hpinged m b hping hlater, hout⟩

/-- The peer is taken out, misses a round and comes back. -/
theorem healed_peer_left_alone_pair : ∃ s : Heartbeats,
    (Heartbeats.init "a:1" ["a:1", "b:1"] ⟨["a:1", "b:1"], 0⟩).Reaches s ∧
      (5, "b:1", true) ∈ s.pings ∧ ∃ j, 3 < j ∧ j < 5 ∧ "b:1" ∉ s.lists j := by
  have hrun : ((Runs.exec Heartbeats.step (fun _ _ => True)
      (.init "a:1" ["a:1", "b:1"] ⟨["a:1", "b:1"], 0⟩)
      (threeMisses ++ [.heal, .commit, .turn, .wake, .sync, .turn, .turn,
        .reconfigure ["b:1", "a:1"], .wake, .sync, .turn, .turn, .ping true])).any fun s =>
        (3, "b:1") ∈ s.heals ∧ (5, "b:1", true) ∈ s.pings) = true := by decide +kernel
  obtain ⟨s, hs, hp⟩ := Runs.exists_run_of_exec hrun
  obtain ⟨hheal, hping⟩ := of_decide_eq_true hp
  exact ⟨s, hs, hping, healed_peer_left_alone rfl hs hheal hping (by decide)⟩

end Runs

end LoonyRedis
