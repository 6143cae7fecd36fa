import LoonyRedis.Lib.Placement
import LoonyRedis.Membership
import LoonyRedis.SameContents

/-!
# Migration

What the commands that change the membership do to the keys. The stores of a cluster without
expiries are a `Placement` of the keys : `World.Shows` says that the nodes have the node lists
`lists` and that their stores hold the keys that `p` puts there.

A key that is pushed to a node goes where the node list of that node says (`serve_entry`).
A node that hands its slots over (`migrateAndCommit_shows`) hands each key that belongs
elsewhere to the owner that its new owner knows of : the new owner itself, or, if it has
the old node list yet, the node that is pushing. So a change of membership is a `Placement.relay`
(`Midway.sendAll`).
-/

namespace LoonyRedis

open Std Store

/-! ## Node lists and configurations -/

/-- The addresses that `main` and `SYNC` read from a list : not empty, and without commas
and white space around them. -/
structure ValidAddr (a : String) : Prop where
  ne_empty : a ≠ ""
  no_comma : ',' ∉ a.toList
  trimmed : Text.trim a.toList = a.toList

/-- The list that is sent is the list that is read. -/
theorem splitNodes_nodesList {nodes : List String} (hne : nodes ≠ [])
    (h : ∀ a ∈ nodes, ValidAddr a) : splitNodes (nodesList nodes) = nodes := by
  have hcomma : ∀ cs ∈ nodes.map String.toList, ',' ∉ cs := by
    intro cs hcs
    obtain ⟨a, ha, rfl⟩ := List.mem_map.mp hcs
    exact (h a ha).no_comma
  have htrim : ∀ a ∈ nodes, String.ofList (Text.trim a.toList) = a := by
    intro a ha
    rw [(h a ha).trimmed, String.ofList_toList]
  have hmap : nodes.map (fun a => String.ofList (Text.trim a.toList)) = nodes :=
    (List.map_congr_left htrim).trans (List.map_id _)
  have hfilter : nodes.filter (fun a => decide (a ≠ "")) = nodes := by
    rw [List.filter_eq_self]
    intro a ha
    exact decide_eq_true (h a ha).ne_empty
  rw [splitNodes, nodesList, String.toList_ofList,
    List.splitOn_intercalate ',' hcomma (by simpa using hne), List.map_map]
  exact (congrArg _ hmap).trans hfilter

/-- A sorted list stays as it is. -/
theorem sortNodes_of_sorted {nodes : List String} (h : nodes.Pairwise (· < ·)) :
    sortNodes nodes = nodes := by
  rw [sortNodes, List.Pairwise.insertionSort_eq (h.imp fun hlt => hlt.le)]
  exact List.destutter_of_isChain _ _ (h.imp fun hlt => hlt.ne).isChain

theorem sortNodes_eq_of_nodup {nodes : List String} (h : nodes.Nodup) :
    sortNodes nodes = nodes.insertionSort (· ≤ ·) :=
  List.destutter_of_isChain _ _ ((List.perm_insertionSort _ _).nodup_iff.mpr h).isChain

/-- Sorting keeps the nodes. -/
theorem mem_sortNodes_of_nodup {nodes : List String} (h : nodes.Nodup) {a : String} :
    a ∈ sortNodes nodes ↔ a ∈ nodes := by
  rw [sortNodes_eq_of_nodup h, List.mem_insertionSort]

theorem sorted_sortNodes_of_nodup {nodes : List String} (h : nodes.Nodup) :
    (sortNodes nodes).Pairwise (· < ·) := by
  rw [sortNodes_eq_of_nodup h]
  exact (List.pairwise_insertionSort (· ≤ ·) nodes).imp₂ (fun _ _ hle hne => hle.lt_of_ne hne)
    ((List.perm_insertionSort _ _).nodup_iff.mpr h)

/-- The configuration of `a` with a sorted node list. -/
def cfgFor (nodes : List String) (a : String) : ClusterConfig := ⟨nodes, nodes.idxOf a⟩

/-- The owner of a key under a sorted node list. -/
def ownerOf (nodes : List String) (key : String) : String :=
  nodes.getD (slotTable nodes.length (slotForKey (Utf8.toBytes key))) ""

section Config

variable {nodes : List String} {a key : String} {cfg : ClusterConfig}

/-- The configuration that a node has under a sorted list. -/
theorem new_eq_ok_iff (h : nodes.Pairwise (· < ·)) : ClusterConfig.new nodes a = .ok cfg ↔
    a ∈ nodes ∧ nodes.length ≤ numSlots ∧ cfg = cfgFor nodes a := by
  unfold ClusterConfig.new
  simp only [sortNodes_of_sorted h]
  by_cases ha : a ∈ nodes
  · have hidx : nodes.findIdx? (fun x => decide (x = a)) = some (nodes.idxOf a) := by
      rw [List.findIdx?_eq_some_of_exists ⟨a, ha, by simp⟩]
      rfl
    rw [if_neg (List.ne_nil_of_mem ha), hidx]
    by_cases hlen : numSlots < nodes.length
    · simp [hlen]
    · simp [hlen, Nat.le_of_not_lt hlen, ha, cfgFor, eq_comm]
  · have hidx : nodes.findIdx? (fun x => decide (x = a)) = none := by
      rw [List.findIdx?_eq_none_iff]
      intro x hx
      exact decide_eq_false fun heq => ha (heq ▸ hx)
    rw [hidx]
    by_cases hnil : nodes = [] <;> simp [hnil, ha]

theorem myAddr_cfgFor (ha : a ∈ nodes) : (cfgFor nodes a).myAddr = a := by
  simp [ClusterConfig.myAddr, cfgFor, List.getD_eq_getElem?_getD, ha]

/-- The owner of a key is found in the list by its slot. -/
theorem ownerOf_eq_getElem (hne : nodes ≠ []) (key : String) :
    ∃ h : slotTable nodes.length (slotForKey (Utf8.toBytes key)) < nodes.length,
      ownerOf nodes key = nodes.get ⟨_, h⟩ := by
  have h := @slotTable_lt _ (slotForKey (Utf8.toBytes key)) (List.length_pos_iff.mpr hne)
  exact ⟨h, by simp [ownerOf, List.getD_eq_getElem?_getD, h]⟩

/-- The owner of a key is a node of the list. -/
theorem ownerOf_mem (hne : nodes ≠ []) (key : String) : ownerOf nodes key ∈ nodes := by
  obtain ⟨h, heq⟩ := ownerOf_eq_getElem hne key
  rw [heq]
  exact List.get_mem ..

/-- A node owns a slot if the table says its address. -/
theorem isMine_slot (hnd : nodes.Nodup) (ha : a ∈ nodes) {slot : ℕ} :
    (cfgFor nodes a).isMine slot = true ↔ nodes.getD (slotTable nodes.length slot) "" = a := by
  have hlt : slotTable nodes.length slot < nodes.length := slotTable_lt (List.length_pos_of_mem ha)
  have hget : nodes.getD (slotTable nodes.length slot) "" = nodes[slotTable nodes.length slot] := by
    rw [List.getD_eq_getElem?_getD, List.getElem?_eq_getElem hlt, Option.getD_some]
  rw [hget, ClusterConfig.isMine, decide_eq_true_eq]
  change slotTable nodes.length slot = nodes.idxOf a ↔ _
  constructor
  · intro hidx
    simp only [hidx]
    exact List.getElem_idxOf _
  · intro hget
    rw [← hget]
    exact (hnd.idxOf_getElem _ _).symm

/-- A node owns the slot of a key if it owns the key. -/
theorem isMine_cfgFor (hnd : nodes.Nodup) (ha : a ∈ nodes) :
    (cfgFor nodes a).isMine (slotForKey (Utf8.toBytes key)) = true ↔ ownerOf nodes key = a :=
  isMine_slot hnd ha

/-- The slots of a node are those of its keys. -/
theorem mem_mySlots_cfgFor (hnd : nodes.Nodup) (ha : a ∈ nodes) :
    slotForKey (Utf8.toBytes key) ∈ (cfgFor nodes a).mySlots ↔ ownerOf nodes key = a := by
  rw [← isMine_cfgFor hnd ha, ClusterConfig.mySlots, List.mem_filter, List.mem_range]
  simp [slotForKey_lt, ClusterConfig.isMine]

/-- The slots that go to a node are those of the keys that it owns next. -/
theorem mem_slotsToSend_cfgFor {new : List String} {t : String} (hnd : nodes.Nodup)
    (ha : a ∈ nodes) (hkey : ownerOf nodes key = a) (ht : t ≠ a) :
    slotForKey (Utf8.toBytes key) ∈ (cfgFor nodes a).slotsToSend (cfgFor new a) t ↔
      ownerOf new key = t := by
  rw [ClusterConfig.slotsToSend, List.mem_filter, mem_mySlots_cfgFor hnd ha, myAddr_cfgFor ha]
  simp only [hkey, ht, true_and, ne_eq, not_false_iff, and_true, decide_eq_true_eq]
  rfl

end Config

/-! ## The stores as a placement -/

/-- The nodes of `all` are up, `a` with the node list `lists a`, and hold the keys that `p`
puts there. -/
def World.Shows (w : World) (all : List String) (lists : String → List String)
    (p : Placement String String Entry) : Prop :=
  ∀ a ∈ all, ∃ s : Store, w a = some ⟨s, cfgFor (lists a) a⟩ ∧ ∀ k, s[k]? = p.onto a k

namespace World.Shows

variable {w : World} {all : List String} {lists : String → List String}
  {p p' : Placement String String Entry} {a : String}

/-- A node that changes its list keeps its keys. -/
theorem setConfig (h : w.Shows all lists p) (new : List String) :
    (w.setConfig a (cfgFor new a)).Shows all (Function.update lists a new) p := by
  intro b hb
  obtain ⟨s, hs, hp⟩ := h b hb
  refine ⟨s, ?_, hp⟩
  by_cases hab : b = a
  · subst hab
    simp [World.setConfig, hs]
  · simp [World.setConfig, Function.update_of_ne hab, hs]

/-- A node that changes its store keeps its list. -/
theorem setStore (h : w.Shows all lists p) {s : Store} (hs : ∀ k, s[k]? = p'.onto a k)
    (hother : ∀ b k, b ≠ a → p'.onto b k = p.onto b k) : (w.setStore a s).Shows all lists p' := by
  intro b hb
  obtain ⟨t, ht, hp⟩ := h b hb
  by_cases hab : b = a
  · subst hab
    exact ⟨s, by simp [World.setStore, ht], hs⟩
  · exact ⟨t, by simp [World.setStore, Function.update_of_ne hab, ht],
      fun k => (hp k).trans (hother b k hab).symm⟩

/-- A key that was nowhere is inserted at `a`. -/
theorem insert (h : w.Shows all lists p) {n : ClusterNode} (ha : a ∈ all) (hn : w a = some n)
    {k : String} (hk : p k = none) (e : Entry) :
    (w.setStore a (n.store.insert k e)).Shows all lists (Function.update p k (some (a, e))) := by
  obtain ⟨s, hs, hp⟩ := h a ha
  obtain rfl : ⟨s, cfgFor (lists a) a⟩ = n := Option.some.inj (hs.symm.trans hn)
  refine h.setStore (fun k' => ?_) fun b k' hb => ?_
  · rw [FinMap.getElem?_insert]
    split
    · next heq =>
      subst heq
      simp [Placement.onto]
    · next hne => simpa [Placement.onto, Function.update_of_ne (Ne.symm hne)] using hp k'
  · by_cases heq : k' = k
    · subst heq
      simp [Placement.onto, hk, Ne.symm hb]
    · simp [Placement.onto, Function.update_of_ne heq]

end World.Shows

/-! ## A key that is pushed -/

/-- How a node of a cluster routes what other nodes send. -/
theorem routeCommand_nodeContext (cfg : ClusterConfig) {name : String} (hname : name ≠ "CLUSTER")
    (args : List Frame) : routeCommand (nodeContext cfg) name args =
      (clusterRoute cfg name args).getD (routeHere (nodeContext cfg) name args) := by
  unfold routeCommand
  cases isWrite name <;> simp [nodeContext, CommandContext.standalone, hname]

namespace Store.SnapshotEntry

/-- A frame that recreates a key is served by its owner. -/
theorem route_entry (cfg : ClusterConfig) (e : SnapshotEntry) :
    route (nodeContext cfg) (snapshotEntryToResp e) =
      if cfg.isMine (slotForKey (Utf8.toBytes e.key)) then
        .dispatch e.name (.bulkStr e.name :: .bulkStr e.key :: e.elements)
      else .proxy (cfg.nodeForSlot (slotForKey (Utf8.toBytes e.key)))
        (.bulkStr e.name :: .bulkStr e.key :: e.elements) := by
  have hsingle : ∀ n ∈ ["SET", "RPUSH", "HSET", "SADD", "ZADD"], n ∈ singleKeyCommands := by
    decide
  have hslot : commandSlot e.name (.bulkStr e.name :: .bulkStr e.key :: e.elements) =
      .slot (slotForKey (Utf8.toBytes e.key)) := by
    rw [commandSlot, if_pos (hsingle _ e.name_mem)]
    rfl
  have hcluster : e.name ≠ "CLUSTER" := fun h => e.name_local (.inl h)
  have hhere : routeHere (nodeContext cfg) e.name (.bulkStr e.name :: .bulkStr e.key :: e.elements) =
      .dispatch e.name (.bulkStr e.name :: .bulkStr e.key :: e.elements) := by
    simp [routeHere, nodeContext, CommandContext.standalone, e.name_local]
  rw [snapshotEntryToResp_eq, route.eq_2 _ _ (List.cons_ne_nil _ _)]
  have hname : bulkBytes (.bulkStr e.name :: .bulkStr e.key :: e.elements) 0 =
      some (Utf8.toBytes e.name) := rfl
  rw [hname]
  simp only [e.commandName_name, routeCommand_nodeContext cfg hcluster, clusterRoute, hslot, hhere]
  split <;> rfl

end Store.SnapshotEntry

section Push

variable {E : ClusterEnv} {w : World} {all : List String} {lists : String → List String}
  {p : Placement String String Entry}

/-- A pushed entry is executed by the node that owns it. -/
theorem serve_entry_mine {a : String} {e : SnapshotEntry} (h : w.Shows all lists p) (ha : a ∈ all)
    (hmine : (cfgFor (lists a) a).isMine (slotForKey (Utf8.toBytes e.key)) = true)
    (he : e.elements ≠ []) (hkey : p e.key = none) (depth : ℕ) :
    (serve E (depth + 1) a (snapshotEntryToResp e) w).2.Shows all lists
      (Function.update p e.key (some (a, ⟨e.value, none⟩))) := by
  obtain ⟨s, hs, hp⟩ := h a ha
  have hnone : s[e.key]? = none := (hp e.key).trans (Placement.onto_of_none hkey)
  have hserve : (serve E (depth + 1) a (snapshotEntryToResp e) w).2 =
      w.setStore a (s.insert e.key ⟨e.value, none⟩) := by
    simp only [serve, hs, e.route_entry, hmine, if_true, dispatch,
      SnapshotEntry.readCommand_eq he, SnapshotEntry.run_request he hnone]
  rw [hserve]
  exact h.insert ha hs hkey _

/-- A key that is pushed to `t` goes to the owner that `t` knows of, if that node knows that it
is the owner. -/
theorem serve_entry {t : String} {e : SnapshotEntry} (h : w.Shows all lists p)
    (hlists : ∀ a ∈ all, (lists a).Nodup ∧ a ∈ lists a) (ht : t ∈ all)
    (hb : ownerOf (lists t) e.key ∈ all)
    (howner : ownerOf (lists (ownerOf (lists t) e.key)) e.key = ownerOf (lists t) e.key)
    (he : e.elements ≠ []) (hkey : p e.key = none) (depth : ℕ) :
    (serve E (depth + 2) t (snapshotEntryToResp e) w).2.Shows all lists
      (Function.update p e.key (some (ownerOf (lists t) e.key, ⟨e.value, none⟩))) := by
  by_cases hown : ownerOf (lists t) e.key = t
  · rw [hown]
    exact serve_entry_mine h ht ((isMine_cfgFor (hlists t ht).1 (hlists t ht).2).mpr hown) he hkey _
  · obtain ⟨s, hs, -⟩ := h t ht
    have hnot : (cfgFor (lists t) t).isMine (slotForKey (Utf8.toBytes e.key)) = false := by
      rw [Bool.eq_false_iff, Ne, isMine_cfgFor (hlists t ht).1 (hlists t ht).2]
      exact hown
    have hserve : serve E (depth + 2) t (snapshotEntryToResp e) w =
        serve E (depth + 1) (ownerOf (lists t) e.key) (snapshotEntryToResp e) w := by
      conv_lhs => rw [serve]
      simp only [hs, e.route_entry, hnot, Bool.false_eq_true, if_false]
      rw [e.snapshotEntryToResp_eq]
      rfl
    rw [hserve]
    exact serve_entry_mine h hb ((isMine_cfgFor (hlists _ hb).1 (hlists _ hb).2).mpr howner) he hkey _

/-- What arrives of an entry that is sent without expiry. -/
def resend (env : Env) (k : String) (e : Entry) : Entry :=
  match snapshotEntry env k e.value with
  | some x => ⟨x.value, none⟩
  | none => e

theorem resend_of_some {env : Env} {k : String} {e : Entry} {x : SnapshotEntry}
    (h : snapshotEntry env k e.value = some x) : resend env k e = ⟨x.value, none⟩ := by
  simp only [resend, h]

/-- A value that was sent does not expire if it did not before. -/
theorem expiresAt_resend (env : Env) (k : String) {e : Entry} (h : e.expiresAt = none) :
    (resend env k e).expiresAt = none := by
  unfold resend
  split
  · rfl
  · exact h

/-- A value that was sent keeps its contents, but for scores that are no numbers. -/
theorem content_resend_iff (env : Env) (k : String) {e : Entry} (h : e.value.isEmpty = false) :
    (resend env k e).value.content = e.value.content ↔ ¬ e.value.HasNaN := by
  obtain ⟨x, hx, -⟩ := @buildValueFrame_eq env k e.value h
  rw [resend_of_some hx]
  exact SnapshotEntry.content_value_eq_iff hx

/-- The keys `ks` with their entries are pushed to `t`. -/
theorem pushEntriesTo_shows {t : String} (env : Env) {entry : String → Entry}
    (hlists : ∀ a ∈ all, (lists a).Nodup ∧ a ∈ lists a) (ht : t ∈ all) (depth : ℕ) :
    ∀ {ks : List String} {w : World} {p : Placement String String Entry}, ks.Nodup →
      (∀ k ∈ ks, p k = none ∧ (entry k).value.isEmpty = false ∧ ownerOf (lists t) k ∈ all ∧
        ownerOf (lists (ownerOf (lists t) k)) k = ownerOf (lists t) k) →
      w.Shows all lists p →
      (pushEntriesTo (serve E (depth + 2)) env t (ks.map fun k => (k, (entry k).value, -1)) w).Shows
        all lists fun k =>
          if k ∈ ks then some (ownerOf (lists t) k, resend env k (entry k)) else p k
  | [], w, p, _, _, h => by simpa [pushEntriesTo] using h
  | k :: ks, w, p, hnd, hks, h => by
    rw [List.nodup_cons] at hnd
    rw [List.forall_mem_cons] at hks
    obtain ⟨⟨hnone, hempty, hall, howner⟩, hks⟩ := hks
    obtain ⟨x, hx, hframe⟩ := @buildValueFrame_eq env k (entry k).value hempty
    have hkey := SnapshotEntry.key_of_snapshotEntry hx
    have hstep := serve_entry (E := E) (e := x) h hlists ht (hkey ▸ hall) (by rw [hkey]; exact howner)
      (SnapshotEntry.elements_ne_nil hx) (hkey ▸ hnone) depth
    rw [hkey, ← hframe, ← resend_of_some hx] at hstep
    have hrest := pushEntriesTo_shows env hlists ht depth hnd.2 (fun k' hk' => by
      have hne : k' ≠ k := fun heq => hnd.1 (heq ▸ hk')
      rw [Function.update_of_ne hne]
      exact hks k' hk') hstep
    have hp : (fun k' => if k' ∈ k :: ks then some (ownerOf (lists t) k', resend env k' (entry k'))
        else p k') = fun k' => if k' ∈ ks then some (ownerOf (lists t) k', resend env k' (entry k'))
          else Function.update p k (some (ownerOf (lists t) k, resend env k (entry k))) k' := by
      ext1 k'
      by_cases heq : k' = k
      · subst heq
        simp [hnd.1]
      · simp [heq]
    rw [List.map_cons, hp]
    exact hrest

end Push

/-! ## Draining -/

/-- Draining takes the listed keys and leaves the others, by induction on the list. -/
theorem drainLoop_eq (now : ℕ) {entry : String → Entry} :
    ∀ {ks : List String} {s : Store}, ks.Nodup →
      (∀ k ∈ ks, s[k]? = some (entry k) ∧ (entry k).expiresAt = none) →
      (drainLoop now ks s).1 = ks.map (fun k => (k, (entry k).value, -1)) ∧
        ∀ k, (drainLoop now ks s).2[k]? = if k ∈ ks then none else s[k]?
  | [], s, _, _ => by simp [drainLoop]
  | k :: ks, s, hnd, hks => by
    rw [List.nodup_cons] at hnd
    rw [List.forall_mem_cons] at hks
    obtain ⟨⟨hs, hnone⟩, hks⟩ := hks
    have hlive : (entry k).isExpired now = false := by rw [Entry.isExpired, hnone]
    have hget : s.get now k = (some (entry k).value, s) := by simp [Store.get, hs, hlive]
    have hpttl : s.pttl now k = -1 := by simp [Store.pttl, hs, hlive, hnone]
    have hks' : ∀ k' ∈ ks, (s.erase k)[k']? = some (entry k') ∧ (entry k').expiresAt = none := by
      intro k' hk'
      have hne : k ≠ k' := fun heq => hnd.1 (heq ▸ hk')
      rw [FinMap.getElem?_erase, if_neg hne]
      exact hks k' hk'
    obtain ⟨hentries, hstore⟩ := drainLoop_eq now hnd.2 hks'
    have hloop : drainLoop now (k :: ks) s =
        ((k, (entry k).value, -1) :: (drainLoop now ks (s.erase k)).1,
          (drainLoop now ks (s.erase k)).2) := by
      rw [drainLoop, hget]
      simp only [hpttl]
      rfl
    rw [hloop]
    refine ⟨by rw [hentries, List.map_cons], fun k' => ?_⟩
    rw [hstore, FinMap.getElem?_erase]
    by_cases heq : k' = k
    · simp [heq]
    · simp [heq, Ne.symm heq]

/-- The keys that are drained, each with its entry, and the store without them. -/
theorem drainSlots_eq (env : Env) (slots : List ℕ) {s : Store} (h : s.NoExpiry) :
    ∃ (ks : List String) (entry : String → Entry), ks.Nodup ∧
      (∀ k, k ∈ ks ↔ k ∈ s ∧ slotForKey (Utf8.toBytes k) ∈ slots) ∧
      (∀ k ∈ ks, s[k]? = some (entry k)) ∧
      (drainSlots env slots s).1 = ks.map (fun k => (k, (entry k).value, -1)) ∧
      ∀ k, (drainSlots env slots s).2[k]? = if k ∈ ks then none else s[k]? := by
  have hperm : (s.allKeys env).Perm s.keys := by
    rw [allKeys, live_of_noExpiry h]
    exact env.keyOrder_perm _
  have hmem (k : String) : k ∈ (s.allKeys env).filter (fun k => slotForKey (Utf8.toBytes k) ∈ slots) ↔
      k ∈ s ∧ slotForKey (Utf8.toBytes k) ∈ slots := by
    rw [List.mem_filter, hperm.mem_iff, ExtTreeMap.mem_keys, decide_eq_true_eq]
  have hentry (k : String) : ∃ e, k ∈ s → s[k]? = some e := by
    by_cases hk : k ∈ s
    · exact ⟨s[k], fun _ => ExtTreeMap.getElem?_eq_some_getElem hk⟩
    · exact ⟨⟨.string [], none⟩, fun hc => absurd hc hk⟩
  choose entry hentry using hentry
  have hnd := (hperm.nodup_iff.mpr ExtTreeMap.nodup_keys).filter
    fun k => decide (slotForKey (Utf8.toBytes k) ∈ slots)
  have hks : ∀ k ∈ (s.allKeys env).filter (fun k => slotForKey (Utf8.toBytes k) ∈ slots),
      s[k]? = some (entry k) ∧ (entry k).expiresAt = none := by
    intro k hk
    have hs := hentry k ((hmem k).mp hk).1
    exact ⟨hs, h k _ hs⟩
  obtain ⟨hentries, hstore⟩ := drainLoop_eq env.now hnd hks
  exact ⟨_, entry, hnd, hmem, fun k hk => (hks k hk).1, hentries, hstore⟩

/-! ## Handing over -/

section HandOver

variable {E : ClusterEnv} {all : List String} {lists : String → List String} {me : String}
  {owner : String → String} {slotsOf : String → List ℕ}

/-- The keys of `me` can be handed to the targets `ts` : `slotsOf` finds them, each can be sent,
and the owner that its target knows of knows that too. -/
structure CanHandOver (all : List String) (lists : String → List String) (me : String)
    (owner : String → String) (slotsOf : String → List ℕ) (ts : List String)
    (p : Placement String String Entry) : Prop where
  noExpiry : ∀ k e, p k = some (me, e) → e.expiresAt = none
  slots : ∀ k e, p k = some (me, e) → ∀ t ∈ ts,
    (slotForKey (Utf8.toBytes k) ∈ slotsOf t ↔ owner k = t)
  nonempty : ∀ k e, p k = some (me, e) → owner k ∈ ts → e.value.isEmpty = false
  dest_mem : ∀ k e, p k = some (me, e) → owner k ∈ ts → ownerOf (lists (owner k)) k ∈ all
  dest_owns : ∀ k e, p k = some (me, e) → owner k ∈ ts →
    ownerOf (lists (ownerOf (lists (owner k)) k)) k = ownerOf (lists (owner k)) k

/-- One target : its slots are drained and pushed. -/
theorem handOver_target (hlists : ∀ a ∈ all, (lists a).Nodup ∧ a ∈ lists a) (hme : me ∈ all)
    (env : Env) (depth : ℕ) {t : String} (ht : t ∈ all) {ts : List String} {w : World}
    {p : Placement String String Entry} (h : w.Shows all lists p)
    (hp : CanHandOver all lists me owner slotsOf (t :: ts) p) :
    (pushEntriesTo (serve E (depth + 2)) env t
      (drainSlots env (slotsOf t) ((w me).elim ∅ ClusterNode.store)).1
      (w.setStore me (drainSlots env (slotsOf t) ((w me).elim ∅ ClusterNode.store)).2)).Shows
        all lists (p.hand me (owner · = t) (fun k => ownerOf (lists (owner k)) k) (resend env)) := by
  obtain ⟨s, hs, hstore⟩ := h me hme
  have helim : (w me).elim ∅ ClusterNode.store = s := by rw [hs]; rfl
  have hplace {k : String} {e : Entry} (hk : s[k]? = some e) : p k = some (me, e) :=
    Placement.onto_eq_some.mp ((hstore k).symm.trans hk)
  have hexp : s.NoExpiry := fun k e hk => hp.noExpiry k e (hplace hk)
  obtain ⟨ks, entry, hnd, hmem, hentry, hentries, hrest⟩ := drainSlots_eq env (slotsOf t) hexp
  have hks {k : String} (hk : k ∈ ks) : p k = some (me, entry k) ∧ owner k = t := by
    have hpk := hplace (hentry k hk)
    exact ⟨hpk, (hp.slots k _ hpk t List.mem_cons_self).mp ((hmem k).mp hk).2⟩
  have hnot {k : String} {e : Entry} (hk : k ∉ ks) (hpk : p k = some (me, e)) : owner k ≠ t := by
    intro heq
    refine hk ((hmem k).mpr ⟨?_, (hp.slots k e hpk t List.mem_cons_self).mpr heq⟩)
    rw [ExtTreeMap.mem_iff_isSome_getElem?, hstore, Placement.onto_eq_some.mpr hpk]
    rfl
  -- Without the keys that were drained.
  have hdrained : (w.setStore me (drainSlots env (slotsOf t) s).2).Shows all lists
      fun k => if k ∈ ks then none else p k := by
    refine h.setStore (fun k => ?_) fun b k hb => ?_
    · rw [hrest, Placement.onto]
      split
      · rfl
      · exact hstore k
    · rw [Placement.onto]
      split
      · next hk => rw [Placement.onto_of_ne (hks hk).1 (Ne.symm hb), Option.bind_none]
      · rfl
  have hpush := pushEntriesTo_shows (E := E) env hlists ht depth hnd (fun k hk => by
    obtain ⟨hpk, rfl⟩ := hks hk
    have hown : owner k ∈ owner k :: ts := List.mem_cons_self
    exact ⟨if_pos hk, hp.nonempty k _ hpk hown, hp.dest_mem k _ hpk hown,
      hp.dest_owns k _ hpk hown⟩) hdrained
  rw [helim, hentries]
  have heq : (p.hand me (owner · = t) (fun k => ownerOf (lists (owner k)) k) (resend env)) =
      fun k => if k ∈ ks then some (ownerOf (lists t) k, resend env k (entry k))
        else if k ∈ ks then none else p k := by
    ext1 k
    by_cases hk : k ∈ ks
    · obtain ⟨hpk, how⟩ := hks hk
      rw [if_pos hk, Placement.hand_of_sel hpk how, how]
    · rw [if_neg hk, if_neg hk]
      cases hpk : p k with
      | none => exact Placement.hand_of_none hpk
      | some x =>
        obtain ⟨b, e⟩ := x
        by_cases hb : b = me
        · subst hb
          exact Placement.hand_of_not hpk (hnot hk hpk)
        · exact Placement.hand_of_ne hpk hb
  rw [heq]
  exact hpush

/-- What is left at `me` after one target can be handed to the others. -/
theorem CanHandOver.tail {t : String} {ts : List String} {p : Placement String String Entry}
    (hp : CanHandOver all lists me owner slotsOf (t :: ts) p) (ht : t ∉ ts) (env : Env) :
    CanHandOver all lists me owner slotsOf ts
      (p.hand me (owner · = t) (fun k => ownerOf (lists (owner k)) k) (resend env)) := by
  have hkept {k : String} {e : Entry} (hk : p.hand me (owner · = t)
      (fun k => ownerOf (lists (owner k)) k) (resend env) k = some (me, e)) :
      ∃ e', p k = some (me, e') ∧ (e = e' ∨ owner k = t ∧ e = resend env k e') := by
    rcases Placement.hand_eq_some hk with ⟨hpk, -⟩ | ⟨e', hpk, how, -, rfl⟩
    · exact ⟨e, hpk, .inl rfl⟩
    · exact ⟨e', hpk, .inr ⟨how, rfl⟩⟩
  refine ⟨fun k e hk => ?_, fun k e hk t' ht' => ?_, fun k e hk how => ?_, fun k e hk how => ?_,
    fun k e hk how => ?_⟩ <;> obtain ⟨e', hpk, he⟩ := hkept hk
  · rcases he with rfl | ⟨-, rfl⟩
    · exact hp.noExpiry k e hpk
    · exact expiresAt_resend env k (hp.noExpiry k e' hpk)
  · exact hp.slots k e' hpk t' (List.mem_cons_of_mem _ ht')
  · rcases he with rfl | ⟨rfl, -⟩
    · exact hp.nonempty k e hpk (List.mem_cons_of_mem _ how)
    · exact absurd how ht
  · exact hp.dest_mem k e' hpk (List.mem_cons_of_mem _ how)
  · exact hp.dest_owns k e' hpk (List.mem_cons_of_mem _ how)

/-- All targets. -/
theorem handOver_shows (hlists : ∀ a ∈ all, (lists a).Nodup ∧ a ∈ lists a) (hme : me ∈ all)
    (env : Env) (depth : ℕ) :
    ∀ {ts : List String} {w : World} {p : Placement String String Entry}, ts.Nodup →
      (∀ t ∈ ts, t ∈ all) → w.Shows all lists p → CanHandOver all lists me owner slotsOf ts p →
      (handOver (serve E (depth + 2)) env me slotsOf ts w).2.Shows all lists
        (p.hand me (owner · ∈ ts) (fun k => ownerOf (lists (owner k)) k) (resend env))
  | [], w, p, _, _, h, _ => by
    have hp : p.hand me (owner · ∈ []) (fun k => ownerOf (lists (owner k)) k) (resend env) = p := by
      ext1 k
      cases hk : p k with
      | none => exact Placement.hand_of_none hk
      | some x => exact Placement.hand_of_not hk List.not_mem_nil
    rw [hp]
    exact h
  | t :: ts, w, p, hnd, hall, h, hp => by
    rw [List.nodup_cons] at hnd
    rw [List.forall_mem_cons] at hall
    have htarget := handOver_target (E := E) hlists hme env depth hall.1 h hp
    have hrest := handOver_shows hlists hme env depth hnd.2 hall.2 htarget (hp.tail hnd.1 env)
    have hdisj (k : String) (hk : owner k = t) : owner k ∉ ts := hk ▸ hnd.1
    rw [Placement.hand_hand hdisj] at hrest
    rw [Placement.hand_congr fun k e _ => ⟨List.mem_cons, fun _ => rfl⟩]
    exact hrest

end HandOver

/-! ## The handlers -/

section Handlers

variable {E : ClusterEnv} {w : World} {all old new : List String} {lists : String → List String}
  {me : String} {p : Placement String String Entry}

/-- The keys of `me` are those that it owns under the list `old`, they can be sent, and each
that belongs elsewhere under the list `new` reaches a node that accepts it. -/
structure Movable (all : List String) (lists : String → List String) (me : String)
    (old new : List String) (p : Placement String String Entry) : Prop where
  noExpiry : ∀ k e, p k = some (me, e) → e.expiresAt = none
  owned : ∀ k e, p k = some (me, e) → ownerOf old k = me
  nonempty : ∀ k e, p k = some (me, e) → ownerOf new k ≠ me → e.value.isEmpty = false
  dest_mem : ∀ k e, p k = some (me, e) → ownerOf new k ≠ me → ownerOf (lists (ownerOf new k)) k ∈ all
  dest_owns : ∀ k e, p k = some (me, e) → ownerOf new k ≠ me →
    ownerOf (lists (ownerOf (lists (ownerOf new k)) k)) k = ownerOf (lists (ownerOf new k)) k

/-- The keys that a node no longer owns can be handed over. -/
theorem Movable.canHandOver (hp : Movable all lists me old new p) {ts : List String}
    {slotsOf : String → List ℕ} (hts : ∀ t ∈ ts, t ≠ me)
    (hslots : ∀ k, ownerOf old k = me → ∀ t ∈ ts,
      (slotForKey (Utf8.toBytes k) ∈ slotsOf t ↔ ownerOf new k = t)) :
    CanHandOver all lists me (ownerOf new) slotsOf ts p where
  noExpiry := hp.noExpiry
  slots k e hk := hslots k (hp.owned k e hk)
  nonempty k e hk how := hp.nonempty k e hk (hts _ how)
  dest_mem k e hk how := hp.dest_mem k e hk (hts _ how)
  dest_owns k e hk how := hp.dest_owns k e hk (hts _ how)

theorem nodeForSlot_mem {nodes : List String} (hne : nodes ≠ []) {cfg : ClusterConfig}
    (hcfg : cfg.nodes = nodes) (slot : ℕ) : cfg.nodeForSlot slot ∈ nodes := by
  have hlt := @slotTable_lt _ slot (List.length_pos_iff.mpr hne)
  have hget : cfg.nodeForSlot slot = nodes.getD (slotTable nodes.length slot) "" := by
    rw [ClusterConfig.nodeForSlot, ClusterConfig.slotToNode, hcfg]
  rw [hget, List.getD_eq_getElem?_getD, List.getElem?_eq_getElem hlt, Option.getD_some]
  exact List.getElem_mem _

/-- The targets of a node that hands over : the owners of its slots under the new list. -/
theorem handOver_targets (hlists : ∀ a ∈ all, (lists a).Nodup ∧ a ∈ lists a) (hme : me ∈ all)
    (hold : old.Nodup) (hmeold : me ∈ old) (hnew : new ≠ []) (hsub : ∀ a ∈ new, a ∈ all)
    (routing : ClusterConfig) (hrouting : routing.nodes = new) (slotsOf : String → List ℕ)
    (hslots : ∀ k, ownerOf old k = me → ∀ t, t ≠ me →
      (slotForKey (Utf8.toBytes k) ∈ slotsOf t ↔ ownerOf new k = t))
    (env env' : Env) (depth : ℕ) (h : w.Shows all lists p) (hp : Movable all lists me old new p) :
    (handOver (serve E (depth + 2)) env me slotsOf (env'.keyOrder
      ((((cfgFor old me).mySlots.map routing.nodeForSlot).filter (· ≠ me)).dedup)) w).2.Shows all
        lists (p.hand me (ownerOf new · ≠ me) (fun k => ownerOf (lists (ownerOf new k)) k)
          (resend env)) := by
  have hperm := env'.keyOrder_perm
    ((((cfgFor old me).mySlots.map routing.nodeForSlot).filter (· ≠ me)).dedup)
  have hmem (t : String) : t ∈ env'.keyOrder
      ((((cfgFor old me).mySlots.map routing.nodeForSlot).filter (· ≠ me)).dedup) ↔
        (∃ s ∈ (cfgFor old me).mySlots, routing.nodeForSlot s = t) ∧ t ≠ me := by
    rw [hperm.mem_iff, List.mem_dedup, List.mem_filter, List.mem_map, decide_eq_true_eq]
  have hnd := hperm.nodup_iff.mpr (List.nodup_dedup _)
  have hall : ∀ t ∈ env'.keyOrder
      ((((cfgFor old me).mySlots.map routing.nodeForSlot).filter (· ≠ me)).dedup), t ∈ all := by
    intro t ht
    obtain ⟨⟨s, -, rfl⟩, -⟩ := (hmem t).mp ht
    exact hsub _ (nodeForSlot_mem hnew hrouting s)
  have hshows := handOver_shows (E := E) hlists hme env depth hnd hall h
    (hp.canHandOver (fun t ht => ((hmem t).mp ht).2)
      fun k hk t ht => hslots k hk t ((hmem t).mp ht).2)
  have hsel (k : String) (e : Entry) (hk : p k = some (me, e)) : ownerOf new k ≠ me ↔
      ownerOf new k ∈ env'.keyOrder
        ((((cfgFor old me).mySlots.map routing.nodeForSlot).filter (· ≠ me)).dedup) := by
    have hslot : routing.nodeForSlot (slotForKey (Utf8.toBytes k)) = ownerOf new k := by
      rw [ClusterConfig.nodeForSlot, ClusterConfig.slotToNode, hrouting]
      rfl
    rw [hmem, and_iff_right ⟨_, (mem_mySlots_cfgFor hold hmeold).mpr (hp.owned k e hk), hslot⟩]
  rw [Placement.hand_congr fun k e hk => ⟨hsel k e hk, fun _ => rfl⟩]
  exact hshows

/-- A node that follows a new list has handed over what belongs elsewhere. -/
theorem migrateAndCommit_shows (hlists : ∀ a ∈ all, (lists a).Nodup ∧ a ∈ lists a) (hme : me ∈ all)
    (hold : old.Pairwise (· < ·)) (hmeold : me ∈ old) (hlenold : old.length ≤ numSlots)
    (hnew : new.Pairwise (· < ·)) (hmenew : me ∈ new) (hlennew : new.length ≤ numSlots)
    (hsub : ∀ a ∈ new, a ∈ all) (env : Env) (depth : ℕ) (h : w.Shows all lists p)
    (hp : Movable all lists me old new p) :
    (migrateAndCommit (serve E (depth + 2)) env me (cfgFor old me) new w).1 = .ok ∧
      (migrateAndCommit (serve E (depth + 2)) env me (cfgFor old me) new w).2.Shows all
        (Function.update lists me new)
        (p.hand me (ownerOf new · ≠ me) (fun k => ownerOf (lists (ownerOf new k)) k)
          (resend env)) := by
  have hndold : old.Nodup := hold.imp fun hlt => hlt.ne
  have hcfgold : ClusterConfig.new (cfgFor old me).nodes (cfgFor old me).myAddr =
      .ok (cfgFor old me) := by
    rw [myAddr_cfgFor hmeold]
    exact (new_eq_ok_iff hold).mpr ⟨hmeold, hlenold, rfl⟩
  have hcfgnew : ClusterConfig.new new (cfgFor old me).myAddr = .ok (cfgFor new me) := by
    rw [myAddr_cfgFor hmeold]
    exact (new_eq_ok_iff hnew).mpr ⟨hmenew, hlennew, rfl⟩
  have hshows := handOver_targets (E := E) hlists hme hndold hmeold (List.ne_nil_of_mem hmenew) hsub
    (cfgFor new me) rfl ((cfgFor old me).slotsToSend (cfgFor new me))
    (fun k hk t ht => mem_slotsToSend_cfgFor hndold hmeold hk ht) env env depth h hp
  rw [migrateAndCommit, hcfgold, hcfgnew]
  refine ⟨rfl, ?_⟩
  simp only [ClusterConfig.sendTargets, myAddr_cfgFor hmeold]
  exact hshows.setConfig new

end Handlers

end LoonyRedis
