import LoonyRedis.Heartbeats
import LoonyRedis.Resharding

/-!
# What `auto_heal` does to the keys

A node that finds a peer failed takes it out of its own node list, and tells the other peers that
it does not hold as failed, in the order of the list, to do the same. These hand over the keys that
the shorter list gives to other nodes, each to a node that may not have been told yet and then
sends them back. The node itself hands nothing over, and neither does one that is not told.

So of the keys of the nodes that are still up those are kept whose owner stays the same, and those
that a peer hands over to a node which follows the new list before it (`heal_keeps_iff`). Nothing
is asked of the failed node : it may be down, or up and cut off. Of the others it is asked that they
hold no expiries and no empty collections, and that every call is finished within its timeout.
-/

namespace LoonyRedis

open Std Store

/-! ## The handler -/

/-- The peers that are told of the new list. -/
def healPeers (nodes : List String) (me failedAddr : String) (isFailed : String → Bool) :
    List String :=
  nodes.filter fun a => a ≠ me ∧ a ≠ failedAddr ∧ isFailed a = false

/-- `isFailed` is what the health table says of the peers when their turn comes. -/
def autoHeal (rpc : Rpc) (failedAddr me : String) (isFailed : String → Bool) (w : World) : World :=
  match w me with
  | none => w
  | some n =>
    match survivors n.config.nodes failedAddr me with
    | none => w
    | some newNodes =>
      match ClusterConfig.new newNodes me with
      | .error _ => w
      | .ok newCfg =>
        -- This node's routing first, then the peers.
        sendAll rpc (syncFrame (nodesList newNodes))
          (healPeers n.config.nodes me failedAddr isFailed) (w.setConfig me newCfg)

/-- The nodes of a sorted list but `failedAddr` are up, share that list, and hold only keys of slots
they own, without expiries and empty collections. -/
structure World.Degraded (w : World) (nodes : List String) (failedAddr : String) : Prop where
  sorted : nodes.Pairwise (· < ·)
  length : nodes.length ≤ numSlots
  valid : ∀ a ∈ nodes, ValidAddr a
  up : ∀ a ∈ nodes, a ≠ failedAddr → ∃ s, w a = some ⟨s, cfgFor nodes a⟩
  owned : ∀ a ∈ nodes, a ≠ failedAddr → ∀ k e, w.entry a k = some e → ownerOf nodes k = a
  noExpiry : ∀ a ∈ nodes, a ≠ failedAddr → ∀ k e, w.entry a k = some e → e.expiresAt = none
  nonempty : ∀ a ∈ nodes, a ≠ failedAddr → ∀ k e, w.entry a k = some e → e.value.isEmpty = false

/-- The key `k` with the value `v` is kept : its owner stays the same, or it is handed over by a
peer that is told, after its new owner was, and all its scores are numbers. -/
def HealKeeps (nodes : List String) (me failedAddr : String) (isFailed : String → Bool) (k : String)
    (v : Value) : Prop :=
  ownerOf (nodes.filter (· ≠ failedAddr)) k = ownerOf nodes k ∨
    ownerOf nodes k ∈ healPeers nodes me failedAddr isFailed ∧
      (ownerOf (nodes.filter (· ≠ failedAddr)) k = me ∨
        ownerOf (nodes.filter (· ≠ failedAddr)) k ∈ healPeers nodes me failedAddr isFailed ∧
          ownerOf (nodes.filter (· ≠ failedAddr)) k < ownerOf nodes k) ∧
      ¬ v.HasNaN

/-! ## The nodes that are up -/

section Heal

variable {E : ClusterEnv} {w : World} {nodes : List String} {me failedAddr : String}

theorem mem_healPeers {isFailed : String → Bool} {a : String} :
    a ∈ healPeers nodes me failedAddr isFailed ↔
    a ∈ nodes ∧ a ≠ me ∧ a ≠ failedAddr ∧ isFailed a = false := by
  rw [healPeers, List.mem_filter, decide_eq_true_eq]

theorem mem_live {a : String} : a ∈ nodes.filter (· ≠ failedAddr) ↔ a ∈ nodes ∧ a ≠ failedAddr := by
  rw [List.mem_filter, decide_eq_true_eq]

namespace World.Degraded

/-- The keys of the nodes that are up. -/
def placement (w : World) (nodes : List String) (failedAddr : String) :
    Placement String String Entry := fun k =>
  if ownerOf nodes k = failedAddr then none else w.placement nodes k

theorem placement_eq_some {a k : String} {e : Entry} (ha : a ∈ nodes) :
    placement w nodes failedAddr k = some (a, e) ↔
      a ≠ failedAddr ∧ w.entry a k = some e ∧ ownerOf nodes k = a := by
  unfold placement
  constructor
  · intro hp
    split at hp
    · cases hp
    · next hne =>
      obtain ⟨-, how, he⟩ := World.of_placement_eq_some (List.ne_nil_of_mem ha) hp
      exact ⟨how ▸ hne, he, how⟩
  · rintro ⟨hne, he, how⟩
    rw [how, if_neg hne, World.placement, how, he]
    rfl

theorem shows (h : w.Degraded nodes failedAddr) :
    w.Shows (nodes.filter (· ≠ failedAddr)) (fun _ => nodes) (placement w nodes failedAddr) := by
  intro a ha
  obtain ⟨ha, hne⟩ := mem_live.mp ha
  obtain ⟨s, hs⟩ := h.up a ha hne
  refine ⟨s, hs, fun k => Option.ext fun e => ?_⟩
  have hentry : w.entry a k = s[k]? := by
    rw [World.entry, hs]
    rfl
  rw [Placement.onto_eq_some, placement_eq_some ha, hentry]
  exact ⟨fun he => ⟨hne, he, h.owned a ha hne k e (hentry.trans he)⟩, fun he => he.2.1⟩

theorem lists (h : w.Degraded nodes failedAddr) (hme : me ∈ nodes) (hne : me ≠ failedAddr) :
    Lists (nodes.filter (· ≠ failedAddr)) nodes (nodes.filter (· ≠ failedAddr)) where
  old_sorted := h.sorted
  new_sorted := h.sorted.sublist List.filter_sublist
  old_length := h.length
  new_length := (List.length_filter_le _ _).trans h.length
  new_sub _ ha := ha
  new_valid a ha := h.valid a (mem_live.mp ha).1
  new_ne_nil := List.ne_nil_of_mem (mem_live.mpr ⟨hme, hne⟩)

/-- The node follows the new list at once. -/
theorem midway (h : w.Degraded nodes failedAddr) (hme : me ∈ nodes) :
    Midway (w.setConfig me (cfgFor (nodes.filter (· ≠ failedAddr)) me))
      (nodes.filter (· ≠ failedAddr)) nodes (nodes.filter (· ≠ failedAddr)) [me]
      (placement w nodes failedAddr) := by
  have hshows := h.shows.setConfig (a := me) (nodes.filter (· ≠ failedAddr))
  have hfollowed : Function.update (fun _ => nodes) me (nodes.filter (· ≠ failedAddr)) =
      followed nodes (nodes.filter (· ≠ failedAddr)) [me] := by
    rw [← Midway.update_followed]
    congr 1
  rw [hfollowed] at hshows
  have hplaced {k a : String} {e : Entry} (hk : placement w nodes failedAddr k = some (a, e)) :
      a ∈ nodes ∧ a ≠ failedAddr ∧ w.entry a k = some e ∧ ownerOf nodes k = a := by
    have hmem : a ∈ nodes := by
      unfold placement at hk
      split at hk
      · cases hk
      · exact (World.of_placement_eq_some (List.ne_nil_of_mem hme) hk).1
    exact ⟨hmem, (placement_eq_some hmem).mp hk⟩
  refine ⟨hshows, fun a ha => ?_, fun k a e hk => ?_, fun k a e hk _ => ?_⟩
  · unfold followed
    split
    · exact ha
    · exact (mem_live.mp ha).1
  · obtain ⟨ha, hup, he, -⟩ := hplaced hk
    exact h.noExpiry a ha hup k e he
  · obtain ⟨ha, hup, he, how⟩ := hplaced hk
    exact ⟨how, h.nonempty a ha hup k e he⟩

end World.Degraded

/-- After the handler the node and the peers that were told follow the new list. -/
theorem heal_run (isFailed : String → Bool) (hw : w.Degraded nodes failedAddr) (hme : me ∈ nodes)
    (hfailed : failedAddr ∈ nodes) (hne : me ≠ failedAddr) (depth : ℕ) :
    (autoHeal (serve E (depth + 3)) failedAddr me isFailed w).Shows
      (nodes.filter (· ≠ failedAddr))
      (followed nodes (nodes.filter (· ≠ failedAddr))
        ((healPeers nodes me failedAddr isFailed).reverse ++ [me]))
      ((World.Degraded.placement w nodes failedAddr).relay
        (ownerOf (nodes.filter (· ≠ failedAddr))) (fun a => resend (E.env a)) [me]
        (healPeers nodes me failedAddr isFailed)) := by
  have hl := hw.lists hme hne
  obtain ⟨s, hs⟩ := hw.up me hme hne
  have hlive : me ∈ nodes.filter (· ≠ failedAddr) := mem_live.mpr ⟨hme, hne⟩
  have hnew : ClusterConfig.new (nodes.filter (· ≠ failedAddr)) me =
      .ok (cfgFor (nodes.filter (· ≠ failedAddr)) me) :=
    (new_eq_ok_iff hl.new_sorted).mpr ⟨hlive, hl.new_length, rfl⟩
  have hsurvivors : survivors nodes failedAddr me = some (nodes.filter (· ≠ failedAddr)) := by
    rw [survivors, if_neg (not_not.mpr hfailed)]
    simp only [hl.new_ne_nil, hlive, not_true_eq_false, if_false]
  have hpeers : ∀ a ∈ healPeers nodes me failedAddr isFailed,
      a ∈ nodes.filter (· ≠ failedAddr) ∧ a ∉ [me] ∧ a ∈ nodes.filter (· ≠ failedAddr) := by
    intro a ha
    obtain ⟨ha, hother, hup, -⟩ := mem_healPeers.mp ha
    exact ⟨mem_live.mpr ⟨ha, hup⟩, by simpa using hother, mem_live.mpr ⟨ha, hup⟩⟩
  have hsynced := Midway.sendAll (E := E) hl depth (hw.midway hme)
    ((hw.sorted.imp fun hlt => hlt.ne).sublist List.filter_sublist) hpeers
  unfold autoHeal
  simp only [hs]
  rw [show (cfgFor nodes me).nodes = nodes from rfl, hsurvivors]
  simp only [hnew]
  exact hsynced.shows

/-- The key `k`, which was at `a`, after the peers were told. -/
theorem heal_key_iff (E : ClusterEnv) (isFailed : String → Bool) (hw : w.Degraded nodes failedAddr)
    {a k : String} {e : Entry} (ha : a ∈ nodes) (hup : a ≠ failedAddr) (he : w.entry a k = some e) :
    ∃ b e', (World.Degraded.placement w nodes failedAddr).relay
      (ownerOf (nodes.filter (· ≠ failedAddr))) (fun a => resend (E.env a)) [me]
      (healPeers nodes me failedAddr isFailed) k = some (b, e') ∧ e'.expiresAt = none ∧
        ((b = ownerOf (nodes.filter (· ≠ failedAddr)) k ∧ e'.value.content = e.value.content) ↔
          HealKeeps nodes me failedAddr isFailed k e.value) := by
  have hown := hw.owned a ha hup k e he
  have hk := (World.Degraded.placement_eq_some ha).mpr ⟨hup, he, hown⟩
  have hexp := hw.noExpiry a ha hup k e he
  have hempty := hw.nonempty a ha hup k e he
  rw [HealKeeps, hown]
  generalize nodes.filter (· ≠ failedAddr) = new
  by_cases hstay : ownerOf new k = a
  · refine ⟨a, e, ?_, hexp, by simp [hstay]⟩
    rw [← hstay] at hk ⊢
    exact Placement.relay_of_owner hk
  · by_cases htold : a ∈ healPeers nodes me failedAddr isFailed
    · -- A peer hands the key over when its turn comes.
      obtain ⟨pre, post, heq, hpre, hpost, hbefore⟩ := List.exists_append_of_sorted
        (hw.sorted.sublist List.filter_sublist) htold
      obtain ⟨b, e', hrelay, hexp', hiff⟩ := relay_kept_iff E [me] pre post hstay hpre hpost hk hexp
        hempty
      have hother : a ≠ me := (mem_healPeers.mp htold).2.1
      refine ⟨b, e', by rw [healPeers, heq]; exact hrelay, hexp', hiff.trans ?_⟩
      have hdone : (ownerOf new k ∈ [me] ∨ ownerOf new k ∈ pre) ↔ (ownerOf new k = me ∨
          ownerOf new k ∈ healPeers nodes me failedAddr isFailed ∧ ownerOf new k < a) := by
        rw [List.mem_singleton]
        refine or_congr_right ⟨fun hmem => ?_, fun h => (hbefore _ h.1).mpr h.2⟩
        have hpeer : ownerOf new k ∈ healPeers nodes me failedAddr isFailed := by
          rw [healPeers, heq]
          exact List.mem_append_left _ hmem
        exact ⟨hpeer, (hbefore _ hpeer).mp hmem⟩
      rw [hdone, or_iff_right hstay, and_iff_right htold]
    · refine ⟨a, e, Placement.relay_of_not_mem hk htold, hexp, ?_⟩
      simp [hstay, Ne.symm hstay, htold]

/-- What becomes of the nodes that are up when `me` heals `failedAddr` away : the node and the peers
it tells follow the shorter list, the others the old one, and a key is kept if and only if its
owner stays the same or it reaches its new owner. -/
theorem heal_keeps_iff (E : ClusterEnv) (depth : ℕ) (isFailed : String → Bool) {w : World}
    {nodes : List String} {me failedAddr : String} (hw : w.Degraded nodes failedAddr)
    (hme : me ∈ nodes) (hfailed : failedAddr ∈ nodes) (hne : me ≠ failedAddr) :
    (∀ a ∈ nodes, a ≠ failedAddr → ∃ s,
      autoHeal (serve E (depth + 3)) failedAddr me isFailed w a = some ⟨s, cfgFor
        (if a = me ∨ a ∈ healPeers nodes me failedAddr isFailed then nodes.filter (· ≠ failedAddr)
          else nodes) a⟩) ∧
    ∀ a ∈ nodes, a ≠ failedAddr → ∀ k e, w.entry a k = some e →
      ((autoHeal (serve E (depth + 3)) failedAddr me isFailed w).Keeps
        (nodes.filter (· ≠ failedAddr)) k e.value ↔
          HealKeeps nodes me failedAddr isFailed k e.value) := by
  have hshows := heal_run (E := E) isFailed hw hme hfailed hne depth
  have hl := hw.lists hme hne
  refine ⟨fun a ha hup => ?_, fun a ha hup k e he => ?_⟩
  · obtain ⟨s, hs, -⟩ := hshows a (mem_live.mpr ⟨ha, hup⟩)
    refine ⟨s, hs.trans ?_⟩
    simp only [followed, List.mem_append, List.mem_reverse, List.mem_singleton, or_comm]
  · obtain ⟨b, e', hk, hexp, hiff⟩ := heal_key_iff E isFailed hw ha hup he
    exact (hshows.keeps_iff hl.new_sub hl.new_ne_nil hk hexp e.value).trans hiff

/-- A node of a cluster goes down. -/
theorem World.Cluster.degraded (hw : w.Cluster nodes) (hfailed : failedAddr ∈ nodes) :
    World.Degraded (Function.update w failedAddr none) nodes failedAddr := by
  have hentry {a : String} (hup : a ≠ failedAddr) (k : String) :
      World.entry (Function.update w failedAddr none) a k = w.entry a k := by
    rw [World.entry, Function.update_of_ne hup, World.entry]
  refine ⟨hw.sorted, hw.length_le hfailed, hw.valid, fun a ha hup => ?_, fun a ha hup k e he => ?_,
    fun a ha hup k e he => ?_, fun a ha hup k e he => ?_⟩
  · obtain ⟨s, hs, -⟩ := hw.shows a ha
    exact ⟨s, by rwa [Function.update_of_ne hup]⟩
  · exact hw.owned a ha k e (hentry hup k ▸ he)
  · exact hw.noExpiry a ha k e (hentry hup k ▸ he)
  · exact hw.nonempty a ha k e (hentry hup k ▸ he)

/-- `c:1` goes down and `a:1` heals it away : `b:1` hands its key over. -/
theorem heal_keeps_key : (autoHeal (serve plainEnv 3) "c:1" "a:1" (fun _ => false)
    (Function.update threeNodes "c:1" none)).Keeps ["a:1", "b:1"] "k" (.string []) := by
  have hme : "a:1" ∈ ["a:1", "b:1", "c:1"] := by decide
  have hfailed : "c:1" ∈ ["a:1", "b:1", "c:1"] := by decide
  have hb : "b:1" ∈ ["a:1", "b:1", "c:1"] := by decide
  have he : World.entry (Function.update threeNodes "c:1" none) "b:1" "k" =
      some ⟨.string [], none⟩ := by
    rw [World.entry, Function.update_of_ne (by decide)]
    exact (entry_oneKeyWorld hb).mpr ⟨by decide, rfl, rfl⟩
  have hkeeps := (heal_keeps_iff plainEnv 0 (fun _ => false) (cluster_threeNodes.degraded hfailed)
    hme hfailed (by decide)).2 "b:1" hb (by decide) "k" _ he
  refine hkeeps.mpr (.inr ⟨by decide, .inl (by decide), not_false⟩)

end Heal

end LoonyRedis
