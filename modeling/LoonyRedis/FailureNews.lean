import LoonyRedis.Gossip
import LoonyRedis.Heartbeats

/-!
# News of a failure

Every node of a cluster has its heartbeat task, and sends its health table to others. A line of
gossip may arrive late, more than once, after others that were sent later, or never, and what a
node has heard it passes on.

The states only travel, they are not made up : a node holds an address as suspected only if some
node has sent it a ping that was not answered, and as failed only if some node has missed its
answers in three rounds in a row (`failure_was_seen`). The addresses must have a form that a line
of gossip can hold.
-/

namespace LoonyRedis

open Std HealthTable

/-! ## The addresses that a node knows -/

/-- The addresses that come from outside satisfy `P`. -/
def HeartbeatEvent.Names (P : String → Prop) : HeartbeatEvent → Prop
  | .gossip updates => ∀ u ∈ updates, P u.1
  | .reconfigure nodes => ∀ x ∈ nodes, P x
  | _ => True

namespace Heartbeats

variable {P : String → Prop} {s t : Heartbeats} {e : HeartbeatEvent}

/-- All addresses satisfy `P`. -/
structure Names (P : String → Prop) (s : Heartbeats) : Prop where
  config : ∀ x ∈ s.config.nodes, P x
  table : ∀ x ∈ s.table, P x
  pending : ∀ x ∈ s.phase.pending, P x
  healed : ∀ nodes rest, s.phase = .healed nodes rest → ∀ x ∈ nodes, P x

/-- `ClusterConfig::new` lists nobody new. -/
theorem mem_of_new {nodes : List String} {a x : String} {config : ClusterConfig}
    (h : ClusterConfig.new nodes a = .ok config) (hx : x ∈ config.nodes) : x ∈ nodes := by
  unfold ClusterConfig.new at h
  dsimp only at h
  split at h
  · cases h
  · split at h
    · cases h
    · split at h
      · cases h
      · obtain rfl := Except.ok.inj h
        exact mem_sortNodes.mp hx

theorem Names.setConfig (h : s.Names P) {nodes : List String} (hnodes : ∀ x ∈ nodes, P x) :
    ∀ x ∈ (s.setConfig nodes).config.nodes, P x := by
  unfold Heartbeats.setConfig
  split
  · next config hconfig => exact fun x hx => hnodes x (mem_of_new hconfig hx)
  · exact h.config

/-- The survivors are some of the members. -/
theorem subset_of_survivors {nodes survivors' : List String} {failedAddr myAddr x : String}
    (h : survivors nodes failedAddr myAddr = some survivors') (hx : x ∈ survivors') :
    x ∈ nodes := by
  unfold survivors at h
  dsimp only at h
  split at h
  · cases h
  · split at h
    · cases h
    · split at h
      · cases h
      · obtain rfl := Option.some.inj h
        exact (List.mem_filter.mp hx).1

/-- `sync_nodes` leaves nobody else in the table. -/
theorem mem_syncNodes {table : HealthTable} {addrs : List String} {x : String}
    (h : x ∈ table.syncNodes addrs) : x ∈ addrs := by
  rw [ExtTreeMap.mem_iff_isSome_getElem?, getElem?_syncNodes] at h
  by_contra hx
  rw [if_neg hx] at h
  cases h

/-- The task starts with plain addresses. -/
theorem Names.start {myAddr : String} {nodes : List String} {config : ClusterConfig}
    (hconfig : ClusterConfig.new nodes myAddr = .ok config) (hnodes : ∀ x ∈ nodes, P x) :
    (init myAddr nodes config).Names P where
  config := fun x hx => hnodes x (mem_of_new hconfig hx)
  table := by
    have hnew : ∀ (peers : List String) (table : HealthTable), (∀ x ∈ peers, P x) →
        (∀ x ∈ table, P x) →
          ∀ x ∈ peers.foldl (fun t peer => t.insert peer defaultHealth) table, P x := by
      intro peers
      induction peers with
      | nil => exact fun _ _ htable => htable
      | cons peer peers ih =>
        intro table hpeers htable
        refine ih _ (fun x hx => hpeers x (List.mem_cons_of_mem _ hx)) fun x hx => ?_
        rw [ExtTreeMap.mem_insert, LawfulEqCmp.compare_eq_iff_eq] at hx
        rcases hx with rfl | hx
        · exact hpeers _ List.mem_cons_self
        · exact htable x hx
    refine hnew _ ∅ (fun x hx => hnodes x (List.mem_filter.mp hx).1) fun x hx => ?_
    exact absurd hx ExtTreeMap.not_mem_empty
  pending := nofun
  healed := nofun

/-- The table and the rest of the round change. -/
theorem Names.goOn (h : s.Names P) {table : HealthTable} {phase : HeartbeatPhase}
    {pings : List (ℕ × String × Bool)} {heals : List (ℕ × String)} (htable : ∀ x ∈ table, P x)
    (hpending : ∀ x ∈ phase.pending, P x) (hhealed : ∀ nodes rest, phase ≠ .healed nodes rest) :
    Names P { s with table := table, phase := phase, pings := pings, heals := heals } :=
  ⟨h.config, htable, hpending, fun nodes rest heq => absurd heq (hhealed nodes rest)⟩

/-- A step keeps to plain addresses. -/
theorem Names.step (h : s.Names P) (he : e.Names P) (hstep : s.step e = some t) : t.Names P := by
  have hpending {phase : HeartbeatPhase} (hphase : s.phase = phase) {peers : List String}
      (hsub : peers ⊆ phase.pending) : ∀ x ∈ peers, P x :=
    fun x hx => h.pending x (hphase ▸ hsub hx)
  have hupdate {peer : String} {f : NodeHealth → NodeHealth} (hpeer : P peer) :
      ∀ x ∈ s.table.update peer f, P x := by
    intro x hx
    rcases mem_update.mp hx with rfl | hx
    · exact hpeer
    · exact h.table x hx
  cases e with
  | wake =>
    simp only [Heartbeats.step] at hstep
    split at hstep
    · obtain rfl := Option.some.inj hstep
      exact ⟨h.config, h.table, h.config, by simp⟩
    · cases hstep
  | sync =>
    simp only [Heartbeats.step] at hstep
    split at hstep
    · next peers hphase =>
      obtain rfl := Option.some.inj hstep
      have hpeers : ∀ x ∈ peers, P x := hpending hphase (List.Subset.refl _)
      exact h.goOn (fun x hx => hpeers x (mem_syncNodes hx)) hpeers (by simp)
    · cases hstep
  | turn =>
    simp only [Heartbeats.step] at hstep
    split at hstep
    · obtain rfl := Option.some.inj hstep
      exact h.goOn h.table (fun x hx => absurd hx List.not_mem_nil) (by simp)
    · next peer rest hphase =>
      split at hstep
      · obtain rfl := Option.some.inj hstep
        exact h.goOn h.table (hpending hphase (List.subset_cons_self _ _)) (by simp)
      · obtain rfl := Option.some.inj hstep
        exact h.goOn h.table (hpending hphase (List.Subset.refl _)) (by simp)
    · cases hstep
  | ping answered =>
    simp only [Heartbeats.step] at hstep
    split at hstep
    · next peer rest hphase =>
      obtain rfl := Option.some.inj hstep
      refine h.goOn h.table ?_ (by cases answered <;> simp [HeartbeatPhase.pinged])
      rw [HeartbeatPhase.pending_pinged]
      exact hpending hphase (List.Subset.refl _)
    · cases hstep
  | record =>
    simp only [Heartbeats.step] at hstep
    split at hstep
    · next peer rest hphase =>
      obtain rfl := Option.some.inj hstep
      exact h.goOn (hupdate (hpending hphase (List.Subset.refl _) _ List.mem_cons_self))
        (hpending hphase (List.subset_cons_self _ _)) (by simp)
    · next peer rest hphase =>
      split at hstep
      · obtain rfl := Option.some.inj hstep
        exact h.goOn (hupdate (hpending hphase (List.Subset.refl _) _ List.mem_cons_self))
          (hpending hphase (List.subset_cons_self _ _)) (by simp)
      · obtain rfl := Option.some.inj hstep
        exact h.goOn (hupdate (hpending hphase (List.Subset.refl _) _ List.mem_cons_self))
          (hpending hphase (List.subset_cons_self _ _)) (by simp)
    · cases hstep
  | heal =>
    simp only [Heartbeats.step] at hstep
    split at hstep
    · next peer rest hphase =>
      split at hstep
      · next nodes hnodes =>
        obtain rfl := Option.some.inj hstep
        refine ⟨h.config, h.table, hpending hphase (List.Subset.refl _),
          fun nodes' rest' heq x hx => ?_⟩
        obtain ⟨rfl, -⟩ := HeartbeatPhase.healed.inj heq
        exact h.config x (subset_of_survivors hnodes hx)
      · obtain rfl := Option.some.inj hstep
        exact h.goOn h.table (hpending hphase (List.Subset.refl _)) (by simp)
    · cases hstep
  | commit =>
    simp only [Heartbeats.step] at hstep
    split at hstep
    · next nodes rest hphase =>
      obtain rfl := Option.some.inj hstep
      rw [setConfig_eq]
      exact ⟨h.setConfig (h.healed nodes rest hphase), h.table,
        hpending hphase (List.Subset.refl _), by simp⟩
    · cases hstep
  | gossip updates =>
    obtain rfl := Option.some.inj hstep
    refine ⟨h.config, fun x hx => ?_, h.pending, h.healed⟩
    rcases (mem_applyGossip updates s.table).mp hx with hold | hnew
    · exact h.table x hold
    · obtain ⟨u, hu, rfl⟩ := List.mem_map.mp hnew
      exact he u hu
  | reconfigure nodes =>
    obtain rfl := Option.some.inj hstep
    rw [setConfig_eq]
    exact ⟨h.setConfig he, h.table, h.pending, h.healed⟩

/-! ## What a node finds out itself -/

/-- The table changes where it is aligned with a list, where a ping is recorded and by gossip. -/
theorem table_of_step (hstep : s.step e = some t) (hsync : e ≠ .sync) (hrecord : e ≠ .record)
    (hgossip : ∀ updates, e ≠ .gossip updates) : t.table = s.table := by
  cases e with
  | sync => exact absurd rfl hsync
  | record => exact absurd rfl hrecord
  | gossip updates => exact absurd rfl (hgossip updates)
  | reconfigure nodes =>
    obtain rfl := Option.some.inj hstep
    rw [setConfig_eq]
  | commit =>
    simp only [Heartbeats.step] at hstep
    split at hstep
    · obtain rfl := Option.some.inj hstep
      rw [setConfig_eq]
    · cases hstep
  | turn =>
    simp only [Heartbeats.step] at hstep
    split at hstep
    · obtain rfl := Option.some.inj hstep
      rfl
    · split at hstep <;> obtain rfl := Option.some.inj hstep <;> rfl
    · cases hstep
  | heal =>
    simp only [Heartbeats.step] at hstep
    split at hstep
    · split at hstep <;> obtain rfl := Option.some.inj hstep <;> rfl
    · cases hstep
  | wake | ping =>
    simp only [Heartbeats.step] at hstep
    split at hstep
    · obtain rfl := Option.some.inj hstep
      rfl
    · cases hstep

/-- What a node holds of an address after a step of its own : the same, nothing, or what its pings
have shown. -/
theorem state_of_step (inv : s.Inv) (hstep : s.step e = some t)
    (hgossip : ∀ updates, e ≠ .gossip updates) (x : String) :
    (t.table.entry x).state = (s.table.entry x).state ∨ (t.table.entry x).state = .alive ∨
      (∃ n, (n, x, false) ∈ s.pings) ∧
        ((t.table.entry x).state = .failed → ∃ n, s.MissedIn x 3 n) := by
  have hmiss {peer : String} {rest : List String} (hphase : s.phase = .unanswered peer rest) :
      ((s.table.update peer missedOnce).entry x).state = (s.table.entry x).state ∨
        ((s.table.update peer missedOnce).entry x).state = .alive ∨
          (∃ n, (n, x, false) ∈ s.pings) ∧
            (((s.table.update peer missedOnce).entry x).state = .failed →
              ∃ n, s.MissedIn x 3 n) := by
    rw [entry_update]
    by_cases hx : peer = x
    · subst hx
      rw [if_pos rfl]
      refine .inr (.inr ⟨⟨_, inv.rounds.missed _ _ hphase⟩, fun hfailed => ?_⟩)
      obtain ⟨hle, hin⟩ := (inv.counts.counted peer).miss inv.rounds hphase
      rw [(missedOnce_of_le hle).2.mp hfailed] at hin
      exact ⟨_, hin⟩
    · rw [if_neg hx]
      exact .inl rfl
  by_cases hsync : e = .sync
  · subst hsync
    simp only [Heartbeats.step] at hstep
    split at hstep
    · next peers hphase =>
      obtain rfl := Option.some.inj hstep
      rw [entry_syncNodes]
      by_cases hx : x ∈ peers
      · exact .inl (by rw [if_pos hx])
      · exact .inr (.inl (by rw [if_neg hx]; rfl))
    · cases hstep
  · by_cases hrecord : e = .record
    · subst hrecord
      simp only [Heartbeats.step] at hstep
      split at hstep
      · next peer rest hphase =>
        obtain rfl := Option.some.inj hstep
        rw [markAlive, entry_update]
        by_cases hx : peer = x
        · exact .inr (.inl (by rw [if_pos hx]))
        · exact .inl (by rw [if_neg hx])
      · next peer rest hphase =>
        split at hstep
        · obtain rfl := Option.some.inj hstep
          exact hmiss hphase
        · obtain rfl := Option.some.inj hstep
          exact hmiss hphase
      · cases hstep
    · rw [table_of_step hstep hsync hrecord hgossip]
      exact .inl rfl

/-- The pings of a node are kept. -/
theorem pings_of_move (hmove : Move s t) : s.pings ⊆ t.pings := by
  cases hmove with
  | ping hphase b => exact List.subset_append_left _ _
  | _ => exact List.Subset.refl _

end Heartbeats

/-! ## The nodes of a cluster -/

/-- The heartbeat tasks of all nodes, and the lines of gossip that were sent. -/
structure GossipNet (ι : Type*) where
  node : ι → Heartbeats
  sent : List String

/-- What happens to the nodes and their lines. -/
inductive GossipEvent (ι : Type*)
  /-- A step of the heartbeat task, or a change of membership. -/
  | own (i : ι) (e : HeartbeatEvent)
  /-- A node sends its table, whose rows stand in some order. -/
  | send (i : ι) (rows : List (String × NodeState))
  /-- A line reaches a node, now or once more. -/
  | receive (i : ι) (payload : String)

namespace GossipNet

variable {ι : Type*}

/-- A node takes a step of its own, sends its table, or hears a line that was sent. -/
def step [DecidableEq ι] (c : GossipNet ι) : GossipEvent ι → Option (GossipNet ι)
  | .own i e =>
    match e with
    | .gossip _ => none
    | e => ((c.node i).step e).map fun s => { c with node := Function.update c.node i s }
  | .send i rows =>
    if rows.Perm (c.node i).table.rows then some { c with sent := c.sent ++ [toCsv rows] } else none
  | .receive i payload =>
    if payload ∈ c.sent then some { c with
      node := Function.update c.node i
        { c.node i with table := (c.node i).table.hear payload } }
    else none

/-- Every node starts with a node list of its own. -/
structure Starts (c : GossipNet ι) : Prop where
  sent : c.sent = []
  node : ∀ i, ∃ myAddr nodes config, ClusterConfig.new nodes myAddr = .ok config ∧
    (∀ x ∈ nodes, PlainAddr x) ∧ c.node i = .init myAddr nodes config

/-- A line of gossip can hold the addresses of the new node lists. -/
def NamesPlain (_ : GossipNet ι) : GossipEvent ι → Prop
  | .own _ e => e.Names PlainAddr
  | _ => True

/-- Some node has seen that the address is in this state. -/
def Seen (c : GossipNet ι) (x : String) (state : NodeState) : Prop :=
  (state ≠ .alive → ∃ j n, (n, x, false) ∈ (c.node j).pings) ∧
    (state = .failed → ∃ j n, (c.node j).MissedIn x 3 n)

/-- The tables of the nodes and the lines hold only what was seen. -/
structure Inv (c : GossipNet ι) : Prop where
  node : ∀ i, (c.node i).Inv
  names : ∀ i, (c.node i).Names PlainAddr
  states : ∀ i x, c.Seen x ((c.node i).table.entry x).state
  sent : ∀ payload ∈ c.sent, ∀ u ∈ readUpdates payload, PlainAddr u.1 ∧ c.Seen u.1 u.2

variable {c c' : GossipNet ι} {x : String} {e : GossipEvent ι}

/-- That a node is alive needs no witness. -/
theorem seen_alive : c.Seen x .alive := ⟨fun h => absurd rfl h, nofun⟩

/-- The worse of two states that were seen was seen. -/
theorem Seen.max {s t : NodeState} (hs : c.Seen x s) (ht : c.Seen x t) : c.Seen x (max s t) := by
  rcases max_choice s t with h | h
  · rwa [h]
  · rwa [h]

/-- What was seen stays seen. -/
theorem Seen.mono {state : NodeState} (h : c.Seen x state)
    (hpings : ∀ i, (c.node i).pings ⊆ (c'.node i).pings) : c'.Seen x state := by
  refine ⟨fun hne => ?_, fun hfailed => ?_⟩
  · obtain ⟨j, n, hping⟩ := h.1 hne
    exact ⟨j, n, hpings j hping⟩
  · obtain ⟨j, n, hin⟩ := h.2 hfailed
    exact ⟨j, n, hin.mono (hpings j)⟩

/-- What a node has seen or heard. -/
theorem seen_applyGossip {t : HealthTable} {updates : List (String × NodeState)}
    (ht : c.Seen x (t.entry x).state) (hupdates : ∀ u ∈ updates, c.Seen u.1 u.2) :
    c.Seen x ((t.applyGossip updates).entry x).state := by
  induction updates generalizing t with
  | nil => exact ht
  | cons u updates ih =>
    refine ih (t := t.update u.1 fun h => { h with state := h.state.gossiped u.2 }) ?_
      fun v hv => hupdates v (List.mem_cons_of_mem _ hv)
    rw [entry_update]
    split
    · next hx =>
      have hu := hupdates u List.mem_cons_self
      rw [hx] at hu ⊢
      rw [NodeState.gossiped_eq_max]
      exact ht.max hu
    · exact ht

/-- The nodes start in the invariant. -/
theorem Inv.start (h : c.Starts) : c.Inv where
  node := fun i => by
    obtain ⟨myAddr, nodes, config, hconfig, -, heq⟩ := h.node i
    exact heq ▸ .start hconfig
  names := fun i => by
    obtain ⟨myAddr, nodes, config, hconfig, hplain, heq⟩ := h.node i
    exact heq ▸ .start hconfig hplain
  states := fun i x => by
    obtain ⟨myAddr, nodes, config, -, -, heq⟩ := h.node i
    have hentry : (c.node i).table.entry x = defaultHealth := heq ▸ entry_new _
    rw [hentry]
    exact seen_alive
  sent := by simp [h.sent]

variable [DecidableEq ι]

/-- A node takes a step. -/
theorem Inv.update (inv : c.Inv) {i : ι} {s : Heartbeats} (hinv : s.Inv)
    (hnames : s.Names PlainAddr) (hpings : (c.node i).pings ⊆ s.pings)
    (hstates : ∀ x, c.Seen x (s.table.entry x).state) :
    Inv { c with node := Function.update c.node i s } := by
  have hmono : ∀ j, (c.node j).pings ⊆ (Function.update c.node i s j).pings := by
    intro j
    by_cases hj : j = i
    · subst hj
      rwa [Function.update_self]
    · rw [Function.update_of_ne hj]
      exact List.Subset.refl _
  refine ⟨fun j => ?_, fun j => ?_, fun j x => ?_, fun payload hpayload u hu => ?_⟩
  · by_cases hj : j = i
    · subst hj
      simpa using hinv
    · simpa [hj] using inv.node j
  · by_cases hj : j = i
    · subst hj
      simpa using hnames
    · simpa [hj] using inv.names j
  · refine Seen.mono (c := c) ?_ hmono
    by_cases hj : j = i
    · subst hj
      simpa using hstates x
    · simpa [hj] using inv.states j x
  · obtain ⟨hplain, hseen⟩ := inv.sent payload hpayload u hu
    exact ⟨hplain, hseen.mono hmono⟩

/-- A node's own step keeps the invariant. -/
theorem Inv.own (inv : c.Inv) {i : ι} {e : HeartbeatEvent} {s : Heartbeats}
    (he : e.Names PlainAddr) (hgossip : ∀ updates, e ≠ .gossip updates)
    (hstep : (c.node i).step e = some s) :
    Inv { c with node := Function.update c.node i s } := by
  have hmove := Heartbeats.move_of_step hstep
  refine inv.update ((inv.node i).step hstep) ((inv.names i).step he hstep)
    (Heartbeats.pings_of_move hmove) fun x => ?_
  rcases Heartbeats.state_of_step (inv.node i) hstep hgossip x with hsame | halive | ⟨hping, hin⟩
  · rw [hsame]
    exact inv.states i x
  · rw [halive]
    exact seen_alive
  · exact ⟨fun _ => ⟨i, hping⟩, fun hfailed => ⟨i, hin hfailed⟩⟩

/-- Gossip that was seen keeps the invariant. -/
theorem Inv.receive (inv : c.Inv) {i : ι} {updates : List (String × NodeState)} {s : Heartbeats}
    (hseen : ∀ u ∈ updates, PlainAddr u.1 ∧ c.Seen u.1 u.2)
    (hstep : (c.node i).step (.gossip updates) = some s) :
    Inv { c with node := Function.update c.node i s } := by
  have hnames : HeartbeatEvent.Names PlainAddr (.gossip updates) := fun u hu => (hseen u hu).1
  have htable : s.table = (c.node i).table.applyGossip updates := by
    obtain rfl := Option.some.inj hstep
    rfl
  refine inv.update ((inv.node i).step hstep) ((inv.names i).step hnames hstep)
    (Heartbeats.pings_of_move (Heartbeats.move_of_step hstep)) fun x => ?_
  rw [htable]
  exact seen_applyGossip (inv.states i x) fun u hu => (hseen u hu).2

/-- A step keeps the invariant. -/
theorem Inv.step (inv : c.Inv) (he : c.NamesPlain e) (hstep : c.step e = some c') : c'.Inv := by
  cases e with
  | own i e =>
    simp only [GossipNet.step] at hstep
    split at hstep
    · cases hstep
    · next hgossip =>
      obtain ⟨s, hs, rfl⟩ := Option.map_eq_some_iff.mp hstep
      exact inv.own he hgossip hs
  | send i rows =>
    simp only [GossipNet.step] at hstep
    split at hstep
    · next hperm =>
      obtain rfl := Option.some.inj hstep
      refine ⟨inv.node, inv.names, inv.states, fun payload hpayload => ?_⟩
      rcases List.mem_append.mp hpayload with hold | hnew
      · exact inv.sent payload hold
      · obtain rfl := List.mem_singleton.mp hnew
        have hplain : ∀ row ∈ rows, PlainAddr row.1 := fun row hrow =>
          (inv.names i).table _ ((mem_map_fst hperm).mp (List.mem_map_of_mem hrow))
        rw [readUpdates_toCsv hplain]
        refine fun row hrow => ⟨hplain row hrow, ?_⟩
        obtain ⟨h, hh, heq⟩ := mem_rows.mp (hperm.subset hrow)
        have hseen := inv.states i row.1
        rwa [entry_of_getElem? hh, heq] at hseen
    · cases hstep
  | receive i payload =>
    simp only [GossipNet.step] at hstep
    split at hstep
    · next hpayload =>
      obtain rfl := Option.some.inj hstep
      refine inv.receive (inv.sent payload hpayload) ?_
      rw [hear_eq]
      rfl
    · cases hstep

end GossipNet

section Runs

variable {ι : Type*} [DecidableEq ι] {c₀ c : GossipNet ι}

/-- However gossip travels, a node holds an address as failed only after a node, itself or another,
has pinged it in three rounds in a row and was not answered, and as suspected only after such a
ping. -/
theorem failure_was_seen (hstart : c₀.Starts) (hrun : Runs.Run GossipNet.step GossipNet.NamesPlain
    c₀ c) (i : ι) (x : String) :
    ((c.node i).table.isFailed x = true → ∃ j n, 3 ≤ n ∧ ∀ k < 3, x ∈ (c.node j).lists (n - k) ∧
      (n - k, x, false) ∈ (c.node j).pings ∧ (n - k, x, true) ∉ (c.node j).pings) ∧
    (((c.node i).table.entry x).state ≠ .alive → ∃ j n, (n, x, false) ∈ (c.node j).pings) := by
  have inv : c.Inv := hrun.invariant (I := GossipNet.Inv) (fun _ _ _ hinv he hstep =>
    hinv.step he hstep) (.start hstart)
  refine ⟨fun hfailed => ?_, (inv.states i x).1⟩
  obtain ⟨j, n, hle, hmissed⟩ := (inv.states i x).2 (isFailed_iff.mp hfailed)
  refine ⟨j, n, hle, fun k hk => ?_⟩
  have hping := hmissed k hk
  refine ⟨((inv.node j).rounds.pings _ x _ hping).2.2, hping, fun hanswered => ?_⟩
  exact Bool.noConfusion ((inv.node j).rounds.once _ x _ _ hping hanswered)

/-- Two nodes, each with a third one in its node list. -/
def twoWatchers : GossipNet Bool where
  node b :=
    if b then .init "a:1" ["a:1", "c:1"] ⟨["a:1", "c:1"], 0⟩
    else .init "b:1" ["b:1", "c:1"] ⟨["b:1", "c:1"], 0⟩
  sent := []

/-- The two watchers start as the nodes do. -/
theorem starts_twoWatchers : twoWatchers.Starts where
  sent := rfl
  node := by
    have hplain : ∀ x ∈ ["a:1", "b:1", "c:1"], PlainAddr x := by
      have hall : ∀ x ∈ ["a:1", "b:1", "c:1"], ',' ∉ x.toList ∧ '=' ∉ x.toList ∧
          Text.trim x.toList = x.toList := by
        decide
      exact fun x hx => ⟨(hall x hx).1, (hall x hx).2.1, (hall x hx).2.2⟩
    have hsub : ["a:1", "c:1"] ⊆ ["a:1", "b:1", "c:1"] ∧
        ["b:1", "c:1"] ⊆ ["a:1", "b:1", "c:1"] := by
      decide
    intro i
    cases i with
    | true => exact ⟨_, _, _, rfl, fun x hx => hplain x (hsub.1 hx), rfl⟩
    | false => exact ⟨_, _, _, rfl, fun x hx => hplain x (hsub.2 hx), rfl⟩

/-- No names come from outside. -/
def GossipEvent.keepsNames : GossipEvent Bool → Bool
  | .own _ (.reconfigure _) | .own _ (.gossip _) => false
  | _ => true

/-- One node misses `c:1` three times, and tells the other. -/
def tellFailure : List (GossipEvent Bool) :=
  threeMisses.map (.own true) ++
    [.send true [("c:1", .failed), ("a:1", .alive)], .receive false "c:1=failed,a:1=alive"]

theorem failure_was_seen_two : ∃ c : GossipNet Bool,
    (c.node false).table.isFailed "c:1" = true ∧ (c.node false).pings = [] ∧
      ∃ j n, 3 ≤ n ∧ ∀ k < 3, "c:1" ∈ (c.node j).lists (n - k) ∧
        (n - k, "c:1", false) ∈ (c.node j).pings ∧ (n - k, "c:1", true) ∉ (c.node j).pings := by
  have hrun : ((Runs.exec GossipNet.step (fun _ e => e.keepsNames = true) twoWatchers
      tellFailure).any fun c => (c.node false).table.isFailed "c:1" &&
        (c.node false).pings.isEmpty) = true := by
    decide +kernel
  obtain ⟨c, hc, hp⟩ := Runs.exists_run_of_exec hrun
  rw [Bool.and_eq_true, List.isEmpty_iff] at hp
  have hnames : Runs.Run GossipNet.step GossipNet.NamesPlain twoWatchers c := by
    refine hc.mono fun _ e he => ?_
    cases e with
    | own i e => cases e <;> trivial
    | _ => trivial
  exact ⟨c, hp.1, hp.2, (failure_was_seen starts_twoWatchers hnames false "c:1").1 hp.1⟩

end Runs

end LoonyRedis
