import LoonyRedis.Migration

/-!
# A node joins or leaves

`CLUSTER MEET` and `CLUSTER FORGET` as runs over the whole cluster. The nodes of a cluster
share one sorted list, and hold only keys of slots that they own. While the list changes,
some nodes follow the new list (`done`) and the others the old one (`Midway`); each node that
is told hands over what belongs elsewhere, and follows the new list from then on.

A key that moves between two nodes arrives if its new owner follows the new list before its
old owner hands over. Nodes are told in the order of the list, the one that serves the
command last for `MEET`, and first and without handing over for `FORGET`. So keys that move
to a node later in the order stay behind : with `MEET` they bounce between the nodes and end
at their old owner, with `FORGET` also the keys of the node that serves the command.

The nodes of such a cluster (`World.Cluster`) hold no expiries and no empty collections, and their
calls are finished within the timeouts.
-/

namespace LoonyRedis

open Std Store

/-! ## Clusters -/

/-- The entry of a key at a node. -/
def World.entry (w : World) (a k : String) : Option Entry := (w a).bind fun n => n.store[k]?

/-- The nodes of a sorted list are up, share that list, and hold only keys of slots they own,
without expiries and empty collections. -/
structure World.Cluster (w : World) (nodes : List String) : Prop where
  sorted : nodes.Pairwise (· < ·)
  valid : ∀ a ∈ nodes, ValidAddr a
  up : ∀ a ∈ nodes, ∃ n, w a = some n ∧ ClusterConfig.new nodes a = .ok n.config
  owned : ∀ a ∈ nodes, ∀ k e, w.entry a k = some e → ownerOf nodes k = a
  noExpiry : ∀ a ∈ nodes, ∀ k e, w.entry a k = some e → e.expiresAt = none
  nonempty : ∀ a ∈ nodes, ∀ k e, w.entry a k = some e → e.value.isEmpty = false

/-- A server that has just started alone : an empty store, and a list with itself. -/
structure World.Alone (w : World) (a : String) : Prop where
  valid : ValidAddr a
  up : ∃ cfg, w a = some ⟨∅, cfg⟩ ∧ ClusterConfig.new [a] a = .ok cfg

/-- The key `k` is at one node of the list, the owner of its slot, with the contents of `v`. -/
def World.Keeps (w : World) (nodes : List String) (k : String) (v : Value) : Prop :=
  ∃ a ∈ nodes, ownerOf nodes k = a ∧ (∀ b ∈ nodes, (w.entry b k).isSome ↔ b = a) ∧
    ∃ e, w.entry a k = some e ∧ e.value.content = v.content ∧ e.expiresAt = none

/-- Every key of `nodes` in `w` is kept in `w'` by the nodes of `nodes'`. -/
def World.Preserved (w w' : World) (nodes nodes' : List String) : Prop :=
  ∀ a ∈ nodes, ∀ k e, w.entry a k = some e → w'.Keeps nodes' k e.value

namespace World

variable {w w' : World} {all nodes new : List String} {lists : String → List String}
  {p : Placement String String Entry}

/-- A node holds what the placement puts on it. -/
theorem Shows.entry_eq (h : w.Shows all lists p) {a : String} (ha : a ∈ all) (k : String) :
    w.entry a k = p.onto a k := by
  obtain ⟨s, hs, hk⟩ := h a ha
  rw [entry, hs]
  exact hk k

/-- The placement of the keys of a cluster. -/
def placement (w : World) (nodes : List String) : Placement String String Entry := fun k =>
  (w.entry (ownerOf nodes k) k).map fun e => (ownerOf nodes k, e)

theorem of_placement_eq_some (hne : nodes ≠ []) {k a : String} {e : Entry}
    (hp : w.placement nodes k = some (a, e)) : a ∈ nodes ∧ ownerOf nodes k = a ∧
      w.entry a k = some e := by
  obtain ⟨e', he, heq⟩ := Option.map_eq_some_iff.mp hp
  obtain ⟨rfl, rfl⟩ := Prod.mk.inj heq
  exact ⟨ownerOf_mem hne k, rfl, he⟩

namespace Cluster

/-- There are slots for all nodes. -/
theorem length_le (h : w.Cluster nodes) {a : String} (ha : a ∈ nodes) : nodes.length ≤ numSlots := by
  obtain ⟨n, -, hcfg⟩ := h.up a ha
  exact ((new_eq_ok_iff h.sorted).mp hcfg).2.1

theorem nodup (h : w.Cluster nodes) : nodes.Nodup := h.sorted.imp fun hlt => hlt.ne

theorem nodup_join (h : w.Cluster nodes) {b : String} (hb : b ∉ nodes) : (nodes ++ [b]).Nodup := by
  rw [List.nodup_append]
  exact ⟨h.nodup, List.nodup_singleton b, fun a ha c hc heq =>
    hb (List.mem_singleton.mp hc ▸ heq ▸ ha)⟩

/-- A key is placed where it is held. -/
theorem placement_eq_some (h : w.Cluster nodes) {a k : String} (ha : a ∈ nodes) {e : Entry}
    (he : w.entry a k = some e) : w.placement nodes k = some (a, e) := by
  rw [placement, h.owned a ha k e he, he]
  rfl

/-- The nodes of a cluster hold what they own. -/
theorem shows (h : w.Cluster nodes) : w.Shows nodes (fun _ => nodes) (w.placement nodes) := by
  intro a ha
  obtain ⟨⟨s, cfg⟩, hn, hcfg⟩ := h.up a ha
  obtain rfl : cfg = cfgFor nodes a := ((new_eq_ok_iff h.sorted).mp hcfg).2.2
  refine ⟨s, hn, fun k => ?_⟩
  have hentry : w.entry a k = s[k]? := by rw [World.entry, hn]; rfl
  cases hs : s[k]? with
  | some e =>
    rw [hs] at hentry
    exact (Placement.onto_eq_some.mpr (h.placement_eq_some ha hentry)).symm
  | none =>
    rw [hs] at hentry
    cases hp : w.placement nodes k with
    | none => exact (Placement.onto_of_none hp).symm
    | some x =>
      obtain ⟨e, he, rfl⟩ := Option.map_eq_some_iff.mp hp
      by_cases how : ownerOf nodes k = a
      · rw [how, hentry] at he
        cases he
      · exact (Placement.onto_of_ne hp how).symm

end Cluster

/-- A key is where it belongs, with its contents. -/
theorem Shows.keeps_iff (h : w.Shows all lists p) (hsub : ∀ a ∈ new, a ∈ all)
    (hne : new ≠ []) {k b : String} {e : Entry} (hk : p k = some (b, e)) (hexp : e.expiresAt = none)
    (v : Value) : w.Keeps new k v ↔ b = ownerOf new k ∧ e.value.content = v.content := by
  constructor
  · rintro ⟨c, hc, rfl, -, e', he', hcontent, -⟩
    rw [h.entry_eq (hsub _ hc), Placement.onto_eq_some, hk] at he'
    obtain ⟨rfl, rfl⟩ := Prod.mk.inj (Option.some.inj he')
    exact ⟨rfl, hcontent⟩
  · rintro ⟨rfl, hcontent⟩
    have hmem := ownerOf_mem hne k
    refine ⟨_, hmem, rfl, fun d hd => ?_, e, ?_, hcontent, hexp⟩
    · rw [h.entry_eq (hsub d hd)]
      constructor
      · intro hsome
        obtain ⟨e', he'⟩ := Option.isSome_iff_exists.mp hsome
        rw [Placement.onto_eq_some, hk] at he'
        exact (Prod.mk.inj (Option.some.inj he')).1.symm
      · rintro rfl
        rw [Placement.onto_eq_some.mpr hk]
        rfl
    · rw [h.entry_eq (hsub _ hmem), Placement.onto_eq_some.mpr hk]

end World

/-! ## Between two lists -/

/-- The lists that a node may follow. -/
structure Lists (all old new : List String) : Prop where
  old_sorted : old.Pairwise (· < ·)
  new_sorted : new.Pairwise (· < ·)
  old_length : old.length ≤ numSlots
  new_length : new.length ≤ numSlots
  new_sub : ∀ a ∈ new, a ∈ all
  new_valid : ∀ a ∈ new, ValidAddr a
  new_ne_nil : new ≠ []

/-- The node list of `a`, once the nodes in `done` have committed the new one. -/
def followed (old new done : List String) (a : String) : List String :=
  if a ∈ done then new else old

/-- The nodes of `done` follow the list `new` and the others the list `old`. What is at one of
the others is where the old list says. -/
structure Midway (w : World) (all old new done : List String)
    (p : Placement String String Entry) : Prop where
  shows : w.Shows all (followed old new done) p
  member : ∀ a ∈ all, a ∈ followed old new done a
  noExpiry : ∀ k a e, p k = some (a, e) → e.expiresAt = none
  waiting : ∀ k a e, p k = some (a, e) → a ∉ done → ownerOf old k = a ∧ e.value.isEmpty = false

namespace Midway

variable {E : ClusterEnv} {w : World} {all old new done : List String} {me : String}
  {p : Placement String String Entry}

theorem followed_of_mem (h : me ∈ done) : followed old new done me = new := if_pos h

theorem followed_of_not_mem (h : me ∉ done) : followed old new done me = old := if_neg h

/-- One more node follows the new list. -/
theorem update_followed : Function.update (followed old new done) me new =
    followed old new (me :: done) := by
  ext1 a
  by_cases ha : a = me
  · subst ha
    rw [Function.update_self, followed_of_mem List.mem_cons_self]
  · rw [Function.update_of_ne ha]
    by_cases hdone : a ∈ done
    · rw [followed_of_mem hdone, followed_of_mem (List.mem_cons_of_mem _ hdone)]
    · rw [followed_of_not_mem hdone, followed_of_not_mem (by simp [ha, hdone])]

/-- Where a key goes that a node of the old list pushes to its new owner. -/
theorem ownerOf_followed (h : Midway w all old new done p) (hme : me ∉ done) {k : String} {e : Entry}
    (hk : p k = some (me, e)) : ownerOf (followed old new done (ownerOf new k)) k =
      if ownerOf new k ∈ done then ownerOf new k else me := by
  by_cases hdone : ownerOf new k ∈ done
  · rw [followed_of_mem hdone, if_pos hdone]
  · rw [followed_of_not_mem hdone, if_neg hdone, (h.waiting k me e hk hme).1]

/-- The node that is told next can hand over. -/
theorem movable (h : Midway w all old new done p) (hl : Lists all old new) (hall : me ∈ all)
    (hme : me ∉ done) : Movable all (followed old new done) me old new p where
  noExpiry k e hk := h.noExpiry k me e hk
  owned k e hk := (h.waiting k me e hk hme).1
  nonempty k e hk _ := (h.waiting k me e hk hme).2
  dest_mem k e hk _ := by
    rw [h.ownerOf_followed hme hk]
    split
    · exact hl.new_sub _ (ownerOf_mem hl.new_ne_nil k)
    · exact hall
  dest_owns k e hk _ := by
    rw [h.ownerOf_followed hme hk]
    split
    · next hdone => rw [followed_of_mem hdone]
    · rw [followed_of_not_mem hme, (h.waiting k me e hk hme).1]

/-- Each node is in the list it follows. -/
theorem lists_ok (h : Midway w all old new done p) (hl : Lists all old new) :
    ∀ a ∈ all, (followed old new done a).Nodup ∧ a ∈ followed old new done a := by
  intro a ha
  refine ⟨?_, h.member a ha⟩
  unfold followed
  split
  · exact hl.new_sorted.imp fun hlt => hlt.ne
  · exact hl.old_sorted.imp fun hlt => hlt.ne

/-- The keys of `me` that belong elsewhere under the new list, handed over. -/
def handed (E : ClusterEnv) (new done : List String) (me : String)
    (p : Placement String String Entry) : Placement String String Entry :=
  p.hand me (ownerOf new · ≠ me) (fun k => if ownerOf new k ∈ done then ownerOf new k else me)
    (resend (E.env me))

/-- A key that is handed over goes to its new owner, or comes back if that one was not told. -/
theorem hand_eq_handed (h : Midway w all old new done p) (hme : me ∉ done) :
    p.hand me (ownerOf new · ≠ me) (fun k => ownerOf (followed old new done (ownerOf new k)) k)
      (resend (E.env me)) = handed E new done me p :=
  Placement.hand_congr fun _ _ hk => ⟨Iff.rfl, fun _ => h.ownerOf_followed hme hk⟩

/-- A node that follows the old list is told of the new one. -/
theorem commit (h : Midway w all old new done p) (hl : Lists all old new) (hall : me ∈ all)
    (hme : me ∉ done) (hnew : me ∈ new) (depth : ℕ) :
    (migrateAndCommit (serve E (depth + 2)) (E.env me) me (cfgFor old me) new w).1 = .ok ∧
      Midway (migrateAndCommit (serve E (depth + 2)) (E.env me) me (cfgFor old me) new w).2 all old
        new (me :: done) (handed E new done me p) := by
  have hold : me ∈ old := by
    have hmem := h.member me hall
    rwa [followed_of_not_mem hme] at hmem
  obtain ⟨hok, hshows⟩ := migrateAndCommit_shows (E := E) (h.lists_ok hl) hall hl.old_sorted hold
    hl.old_length hl.new_sorted hnew hl.new_length hl.new_sub (E.env me) depth h.shows
    (h.movable hl hall hme)
  rw [h.hand_eq_handed hme, update_followed] at hshows
  refine ⟨hok, hshows, fun a ha => ?_, fun k a e hk => ?_, fun k a e hk hdone => ?_⟩
  · by_cases heq : a = me
    · rw [heq, followed_of_mem List.mem_cons_self]
      exact hnew
    · rw [← update_followed, Function.update_of_ne heq]
      exact h.member a ha
  · rcases Placement.hand_eq_some hk with ⟨hp, -⟩ | ⟨e', hp, -, -, rfl⟩
    · exact h.noExpiry k a e hp
    · exact expiresAt_resend _ _ (h.noExpiry k me e' hp)
  · rw [List.mem_cons, not_or] at hdone
    rcases Placement.hand_eq_some hk with ⟨hp, -⟩ | ⟨e', hp, -, rfl, -⟩
    · exact h.waiting k a e hp hdone.2
    · split at hdone
      · next hmem => exact absurd hmem hdone.2
      · exact absurd rfl hdone.1

end Midway

/-! ## The frames -/

/-- The arguments of a `CLUSTER` subcommand. -/
def clusterArgs (words : List String) : List Frame := ("CLUSTER" :: words).map Frame.bulkStr

/-- How a node serves `CLUSTER`. -/
theorem serve_cluster (E : ClusterEnv) (depth : ℕ) {w : World} {a : String} {n : ClusterNode}
    (hn : w a = some n) (words : List String) :
    serve E (depth + 1) a (.command ("CLUSTER" :: words)) w =
      cmdCluster (serve E depth) (E.env a) a n.config (clusterArgs words) (E.health a) w := by
  have hname : commandName (Utf8.toBytes "CLUSTER") = "CLUSTER" := by decide
  have hroute : route (nodeContext n.config) (.command ("CLUSTER" :: words)) =
      .remote "CLUSTER" (clusterArgs words) := by
    rw [Frame.command, List.map_cons, route.eq_2 _ _ (List.cons_ne_nil _ _)]
    have hbytes : bulkBytes (.bulkStr "CLUSTER" :: words.map Frame.bulkStr) 0 =
        some (Utf8.toBytes "CLUSTER") := rfl
    rw [hbytes]
    simp only [hname]
    rfl
  simp only [serve, hn, hroute, if_true]

theorem bulkAsStr_clusterArgs (words : List String) (i : ℕ) :
    bulkAsStr (clusterArgs words) (i + 1) = words[i]? := by
  simp only [bulkAsStr, bulkBytes, clusterArgs, List.map_cons, List.getElem?_cons_succ,
    List.getElem?_map]
  cases words[i]? with
  | none => rfl
  | some s => simp [Frame.bulkStr, Frame.payload]

/-- How a node serves a `SYNC` with a list of which it is a member. -/
theorem serve_sync {E : ClusterEnv} {w : World} {me : String} {s : Store} {old new : List String}
    (hs : w me = some ⟨s, cfgFor old me⟩) (hold : me ∈ old) (hnew : me ∈ new)
    (hvalid : ∀ a ∈ new, ValidAddr a) (depth : ℕ) :
    serve E (depth + 1) me (syncFrame (nodesList new)) w =
      migrateAndCommit (serve E depth) (E.env me) me (cfgFor old me) new w := by
  have hupper : Text.toUppercase "SYNC" = "SYNC" := by decide
  rw [syncFrame, serve_cluster E _ hs]
  simp only [cmdCluster, clusterSync, bulkAsStr_clusterArgs, List.getElem?_cons_zero,
    List.getElem?_cons_succ, Option.map_some, Option.getD_some, hupper,
    splitNodes_nodesList (List.ne_nil_of_mem hnew) hvalid, myAddr_cfgFor hold, if_pos hnew]

namespace Midway

variable {E : ClusterEnv} {w : World} {all old new done : List String} {me : String}
  {p : Placement String String Entry}

/-- A node serves `SYNC`. -/
theorem sync (h : Midway w all old new done p) (hl : Lists all old new) (hall : me ∈ all)
    (hme : me ∉ done) (hnew : me ∈ new) (depth : ℕ) :
    Midway (serve E (depth + 3) me (syncFrame (nodesList new)) w).2 all old new (me :: done)
      (handed E new done me p) := by
  obtain ⟨s, hs, -⟩ := h.shows me hall
  have hold : me ∈ old := by
    have hmem := h.member me hall
    rwa [followed_of_not_mem hme] at hmem
  rw [followed_of_not_mem hme] at hs
  rw [serve_sync hs hold hnew hl.new_valid]
  exact (h.commit hl hall hme hnew depth).2

/-- The nodes of a list serve `SYNC`, one after the other. -/
theorem sendAll (hl : Lists all old new) (depth : ℕ) :
    ∀ {peers : List String} {w : World} {done : List String} {p : Placement String String Entry},
      Midway w all old new done p → peers.Nodup →
      (∀ a ∈ peers, a ∈ all ∧ a ∉ done ∧ a ∈ new) →
      Midway (LoonyRedis.sendAll (serve E (depth + 3)) (syncFrame (nodesList new)) peers w) all old
        new (peers.reverse ++ done)
        (p.relay (ownerOf new) (fun a => resend (E.env a)) done peers)
  | [], w, done, p, h, _, _ => h
  | a :: peers, w, done, p, h, hnd, hpeers => by
    rw [List.nodup_cons] at hnd
    rw [List.forall_mem_cons] at hpeers
    obtain ⟨⟨hall, hme, hnew⟩, hpeers⟩ := hpeers
    have hstep := h.sync (E := E) hl hall hme hnew depth
    have hrest := sendAll hl depth hstep hnd.2 (fun b hb => ⟨(hpeers b hb).1, by
      rw [List.mem_cons, not_or]
      exact ⟨fun heq => hnd.1 (heq ▸ hb), (hpeers b hb).2.1⟩, (hpeers b hb).2.2⟩)
    rw [List.reverse_cons, List.append_assoc]
    exact hrest

end Midway

/-- A key that belongs elsewhere, after the nodes of a list were told : it has arrived with its
contents if its new owner was told before, and all its scores are numbers. -/
theorem relay_kept_iff (E : ClusterEnv) {new : List String} (done pre post : List String)
    {p : Placement String String Entry} {k a : String} {e : Entry} (hne : ownerOf new k ≠ a)
    (hpre : a ∉ pre) (hpost : a ∉ post) (hk : p k = some (a, e)) (hexp : e.expiresAt = none)
    (hempty : e.value.isEmpty = false) :
    ∃ b e', p.relay (ownerOf new) (fun a => resend (E.env a)) done (pre ++ a :: post) k =
      some (b, e') ∧ e'.expiresAt = none ∧
        ((b = ownerOf new k ∧ e'.value.content = e.value.content) ↔
          ((ownerOf new k ∈ done ∨ ownerOf new k ∈ pre) ∧ ¬ e.value.HasNaN)) := by
  refine ⟨_, _, Placement.relay_of_mem hne hpost hk hpre, expiresAt_resend _ _ hexp, ?_⟩
  rw [content_resend_iff _ _ hempty]
  split
  · next h => simp [h]
  · next h => simp [h, hne.symm]

/-! ## A node joins -/

/-- `MEET` of `newAddr`, served by `me`, keeps the key `k` with the value `v` : its owner stays
the same, or its new owner follows the new list before its old owner hands it over, and all
its scores are numbers. -/
def MeetKeeps (nodes : List String) (me newAddr k : String) (v : Value) : Prop :=
  ownerOf (sortNodes (nodes ++ [newAddr])) k = ownerOf nodes k ∨
    ((ownerOf (sortNodes (nodes ++ [newAddr])) k = newAddr ∨ ownerOf nodes k = me ∨
      (ownerOf (sortNodes (nodes ++ [newAddr])) k ≠ me ∧
        ownerOf (sortNodes (nodes ++ [newAddr])) k < ownerOf nodes k)) ∧ ¬ v.HasNaN)

section Meet

variable {E : ClusterEnv} {w : World} {nodes : List String} {me newAddr : String}

/-- The new node follows the new list at once. -/
theorem midway_joined (hw : w.Cluster nodes) (hme : me ∈ nodes) (hnew : newAddr ∉ nodes)
    (halone : w.Alone newAddr)
    (hl : Lists (sortNodes (nodes ++ [newAddr])) nodes (sortNodes (nodes ++ [newAddr])))
    (hmem : ∀ a, a ∈ sortNodes (nodes ++ [newAddr]) ↔ a ∈ nodes ∨ a = newAddr) (depth : ℕ) :
    Midway (serve E (depth + 3) newAddr (syncFrame (nodesList (sortNodes (nodes ++ [newAddr])))) w).2
      (sortNodes (nodes ++ [newAddr])) nodes (sortNodes (nodes ++ [newAddr])) [newAddr]
      (w.placement nodes) := by
  obtain ⟨cfg, hup, hcfg⟩ := halone.up
  have hsingle : [newAddr].Pairwise (· < ·) := List.pairwise_singleton ..
  obtain rfl : cfg = cfgFor [newAddr] newAddr := ((new_eq_ok_iff hsingle).mp hcfg).2.2
  have hne : nodes ≠ [] := List.ne_nil_of_mem hme
  have hself : newAddr ∈ sortNodes (nodes ++ [newAddr]) := (hmem _).mpr (.inr rfl)
  have hnone {k a : String} {e : Entry} (hk : w.placement nodes k = some (a, e)) : a ≠ newAddr := by
    rintro rfl
    exact hnew (World.of_placement_eq_some hne hk).1
  -- Before, the new node follows the list with itself.
  have hshows : w.Shows (sortNodes (nodes ++ [newAddr]))
      (Function.update (fun _ => nodes) newAddr [newAddr]) (w.placement nodes) := by
    intro a ha
    by_cases heq : a = newAddr
    · subst heq
      refine ⟨∅, by rw [Function.update_self]; exact hup, fun k => ?_⟩
      rw [ExtTreeMap.getElem?_empty]
      cases hk : w.placement nodes k with
      | none => exact (Placement.onto_of_none hk).symm
      | some x => exact (Placement.onto_of_ne hk (hnone hk)).symm
    · rw [Function.update_of_ne heq]
      exact hw.shows a (((hmem a).mp ha).resolve_right heq)
  have hlists : ∀ a ∈ sortNodes (nodes ++ [newAddr]),
      (Function.update (fun _ => nodes) newAddr [newAddr] a).Nodup ∧
        a ∈ Function.update (fun _ => nodes) newAddr [newAddr] a := by
    intro a ha
    by_cases heq : a = newAddr
    · subst heq
      simp
    · rw [Function.update_of_ne heq]
      exact ⟨hl.old_sorted.imp fun hlt => hlt.ne, ((hmem a).mp ha).resolve_right heq⟩
  have hmovable : Movable (sortNodes (nodes ++ [newAddr]))
      (Function.update (fun _ => nodes) newAddr [newAddr]) newAddr [newAddr]
      (sortNodes (nodes ++ [newAddr])) (w.placement nodes) :=
    ⟨fun _ _ hk => absurd rfl (hnone hk), fun _ _ hk => absurd rfl (hnone hk),
      fun _ _ hk => absurd rfl (hnone hk), fun _ _ hk => absurd rfl (hnone hk),
      fun _ _ hk => absurd rfl (hnone hk)⟩
  obtain ⟨-, hcommit⟩ := migrateAndCommit_shows (E := E) hlists hself hsingle
    (List.mem_singleton_self _) (by simp [numSlots]) hl.new_sorted hself hl.new_length (fun _ ha => ha)
    (E.env newAddr) depth hshows hmovable
  have hfollowed : Function.update (Function.update (fun _ => nodes) newAddr [newAddr]) newAddr
      (sortNodes (nodes ++ [newAddr])) = followed nodes (sortNodes (nodes ++ [newAddr])) [newAddr] := by
    ext1 a
    by_cases heq : a = newAddr
    · rw [heq, Function.update_self, Midway.followed_of_mem (List.mem_singleton_self _)]
    · rw [Function.update_of_ne heq, Function.update_of_ne heq,
        Midway.followed_of_not_mem (by simpa using heq)]
  have hplace : (w.placement nodes).hand newAddr (ownerOf (sortNodes (nodes ++ [newAddr])) · ≠ newAddr)
      (fun k => ownerOf (Function.update (fun _ => nodes) newAddr [newAddr]
        (ownerOf (sortNodes (nodes ++ [newAddr])) k)) k) (resend (E.env newAddr)) =
        w.placement nodes := by
    ext1 k
    cases hk : w.placement nodes k with
    | none => exact Placement.hand_of_none hk
    | some x => exact Placement.hand_of_ne hk (hnone hk)
  rw [hfollowed, hplace] at hcommit
  rw [serve_sync hup (List.mem_singleton_self _) hself hl.new_valid]
  refine ⟨hcommit, fun a ha => ?_, fun k a e hk => ?_, fun k a e hk _ => ?_⟩
  · rw [← hfollowed]
    by_cases heq : a = newAddr
    · rw [heq, Function.update_self]
      exact hself
    · rw [Function.update_of_ne heq]
      exact (hlists a ha).2
  · obtain ⟨ha, -, he⟩ := World.of_placement_eq_some hne hk
    exact hw.noExpiry a ha k e he
  · obtain ⟨ha, how, he⟩ := World.of_placement_eq_some hne hk
    exact ⟨how, hw.nonempty a ha k e he⟩

/-- The new list has the old nodes and the new one. -/
theorem mem_meet_nodes (hw : w.Cluster nodes) (hnew : newAddr ∉ nodes) (a : String) :
    a ∈ sortNodes (nodes ++ [newAddr]) ↔ a ∈ nodes ∨ a = newAddr := by
  rw [mem_sortNodes_of_nodup (hw.nodup_join hnew), List.mem_append, List.mem_singleton]

/-- The lists of a `MEET`. -/
theorem meet_lists (hw : w.Cluster nodes) (hme : me ∈ nodes) (hnew : newAddr ∉ nodes)
    (halone : w.Alone newAddr) (hlen : (sortNodes (nodes ++ [newAddr])).length ≤ numSlots) :
    Lists (sortNodes (nodes ++ [newAddr])) nodes (sortNodes (nodes ++ [newAddr])) where
  old_sorted := hw.sorted
  new_sorted := sorted_sortNodes_of_nodup (hw.nodup_join hnew)
  old_length := hw.length_le hme
  new_length := hlen
  new_sub _ ha := ha
  new_valid a ha := by
    rcases (mem_meet_nodes hw hnew a).mp ha with ha | rfl
    · exact hw.valid a ha
    · exact halone.valid
  new_ne_nil := List.ne_nil_of_mem ((mem_meet_nodes hw hnew me).mpr (.inl hme))

/-- The frame of `MEET` reaches its handler. -/
theorem serve_meet (hw : w.Cluster nodes) (hme : me ∈ nodes) {host portText : String} {port : ℕ}
    (hport : Text.parseU16 portText.toList = some port) (haddr : newAddr = s!"{host}:{port}")
    (hnew : newAddr ∉ nodes) (depth : ℕ) :
    serve E (depth + 1) me (.command ["CLUSTER", "MEET", host, portText]) w =
      migrateAndCommit (serve E depth) (E.env me) me (cfgFor nodes me)
        (sortNodes (nodes ++ [newAddr]))
        (sendAll (serve E depth) (syncFrame (nodesList (sortNodes (nodes ++ [newAddr]))))
          (nodes.filter (· ≠ me))
          (serve E depth newAddr (syncFrame (nodesList (sortNodes (nodes ++ [newAddr])))) w).2) := by
  obtain ⟨s, hs, -⟩ := hw.shows me hme
  have hupper : Text.toUppercase "MEET" = "MEET" := by decide
  have hlen : ¬ (clusterArgs ["MEET", host, portText]).length < 4 := by simp [clusterArgs]
  have hnodes : (cfgFor nodes me).nodes = nodes := rfl
  rw [serve_cluster E _ hs]
  simp only [cmdCluster, clusterMeet, bulkAsStr_clusterArgs, List.getElem?_cons_zero,
    List.getElem?_cons_succ, Option.map_some, Option.getD_some, hupper, hlen, if_false,
    Option.bind_some, hport, ← haddr, hnodes, hnew, myAddr_cfgFor hme]

/-- Where each key is after a `MEET`. -/
theorem meet_run (hw : w.Cluster nodes) (hme : me ∈ nodes) {host portText : String} {port : ℕ}
    (hport : Text.parseU16 portText.toList = some port) (haddr : newAddr = s!"{host}:{port}")
    (hnew : newAddr ∉ nodes) (halone : w.Alone newAddr)
    (hlen : (sortNodes (nodes ++ [newAddr])).length ≤ numSlots) (depth : ℕ) :
    (serve E (depth + 4) me (.command ["CLUSTER", "MEET", host, portText]) w).1 = .ok ∧
      (serve E (depth + 4) me (.command ["CLUSTER", "MEET", host, portText]) w).2.Shows
        (sortNodes (nodes ++ [newAddr]))
        (followed nodes (sortNodes (nodes ++ [newAddr]))
          (me :: ((nodes.filter (· ≠ me)).reverse ++ [newAddr])))
        ((w.placement nodes).relay (ownerOf (sortNodes (nodes ++ [newAddr])))
          (fun a => resend (E.env a)) [newAddr] (nodes.filter (· ≠ me) ++ [me])) := by
  have hl := meet_lists hw hme hnew halone hlen
  have hmem := mem_meet_nodes hw hnew
  have hjoined := midway_joined (E := E) hw hme hnew halone hl hmem depth
  have hnd : (nodes.filter (· ≠ me)).Nodup :=
    hw.nodup.sublist List.filter_sublist
  have hpeers : ∀ a ∈ nodes.filter (· ≠ me), a ∈ sortNodes (nodes ++ [newAddr]) ∧
      a ∉ [newAddr] ∧ a ∈ sortNodes (nodes ++ [newAddr]) := by
    intro a ha
    have ha : a ∈ nodes := (List.mem_filter.mp ha).1
    have hall := (hmem a).mpr (.inl ha)
    exact ⟨hall, fun heq => hnew (List.mem_singleton.mp heq ▸ ha), hall⟩
  have hsynced := Midway.sendAll (E := E) hl depth hjoined hnd hpeers
  have hself := (hmem me).mpr (.inl hme)
  have hwaiting : me ∉ (nodes.filter (· ≠ me)).reverse ++ [newAddr] := by
    simp only [List.mem_append, List.mem_reverse, List.mem_filter, List.mem_singleton]
    rintro (⟨-, h⟩ | rfl)
    · simp at h
    · exact hnew hme
  obtain ⟨hok, hdone⟩ := hsynced.commit (E := E) hl hself hwaiting hself (depth + 1)
  rw [serve_meet hw hme hport haddr hnew, Placement.relay_append]
  exact ⟨hok, hdone.shows⟩

/-- With more nodes than slots the handler panics. -/
theorem length_le_of_meet_ok (hw : w.Cluster nodes) (hme : me ∈ nodes) {host portText : String}
    {port : ℕ} (hport : Text.parseU16 portText.toList = some port)
    (haddr : newAddr = s!"{host}:{port}") (hnew : newAddr ∉ nodes) {depth : ℕ}
    (hok : (serve E (depth + 1) me (.command ["CLUSTER", "MEET", host, portText]) w).1 = .ok) :
    (sortNodes (nodes ++ [newAddr])).length ≤ numSlots := by
  rw [serve_meet hw hme hport haddr hnew, migrateAndCommit] at hok
  split at hok
  · next newCfg _ hcfg =>
    exact ((new_eq_ok_iff (sorted_sortNodes_of_nodup (hw.nodup_join hnew))).mp hcfg).2.1
  · cases hok

/-- The key `k`, which was at `a`, after `MEET`. -/
theorem meet_key_iff (E : ClusterEnv) (me : String) (hw : w.Cluster nodes)
    (hnew : newAddr ∉ nodes) {a k : String} {e : Entry} (ha : a ∈ nodes) (he : w.entry a k = some e) :
    ∃ b e', (w.placement nodes).relay (ownerOf (sortNodes (nodes ++ [newAddr])))
      (fun a => resend (E.env a)) [newAddr] (nodes.filter (· ≠ me) ++ [me]) k = some (b, e') ∧
        e'.expiresAt = none ∧ ((b = ownerOf (sortNodes (nodes ++ [newAddr])) k ∧
          e'.value.content = e.value.content) ↔ MeetKeeps nodes me newAddr k e.value) := by
  have hk := hw.placement_eq_some ha he
  have hexp := hw.noExpiry a ha k e he
  have hempty := hw.nonempty a ha k e he
  have hown := hw.owned a ha k e he
  have hsorted : (nodes.filter (· ≠ me)).Pairwise (· < ·) := hw.sorted.sublist List.filter_sublist
  have howner := (mem_meet_nodes hw hnew _).mp (ownerOf_mem (List.ne_nil_of_mem
    ((mem_meet_nodes hw hnew a).mpr (.inl ha))) k)
  rw [MeetKeeps, hown]
  by_cases hstay : ownerOf (sortNodes (nodes ++ [newAddr])) k = a
  · refine ⟨a, e, ?_, hexp, by simp [hstay]⟩
    rw [← hstay] at hk ⊢
    exact Placement.relay_of_owner hk
  · by_cases hme : a = me
    · -- The node that serves the command is the last one.
      subst hme
      obtain ⟨b, e', hrelay, hexp', hiff⟩ := relay_kept_iff E [newAddr]
        (nodes.filter (· ≠ a)) [] hstay (by simp) List.not_mem_nil hk hexp hempty
      refine ⟨b, e', hrelay, hexp', hiff.trans ?_⟩
      have hdone : ownerOf (sortNodes (nodes ++ [newAddr])) k ∈ [newAddr] ∨
          ownerOf (sortNodes (nodes ++ [newAddr])) k ∈ nodes.filter (· ≠ a) := by
        rcases howner with h | h
        · exact .inr (List.mem_filter.mpr ⟨h, decide_eq_true hstay⟩)
        · exact .inl (List.mem_singleton.mpr h)
      rw [and_iff_right hdone]
      simp [hstay]
    · have hpeer : a ∈ nodes.filter (· ≠ me) := List.mem_filter.mpr ⟨ha, decide_eq_true hme⟩
      obtain ⟨pre, post, heq, hpre, hpost, hbefore⟩ := List.exists_append_of_sorted hsorted hpeer
      obtain ⟨b, e', hrelay, hexp', hiff⟩ := relay_kept_iff E [newAddr] pre
        (post ++ [me]) hstay hpre (by simp [hpost, hme]) hk hexp hempty
      refine ⟨b, e', by rw [heq, List.append_assoc]; exact hrelay, hexp', hiff.trans ?_⟩
      have hdone : (ownerOf (sortNodes (nodes ++ [newAddr])) k ∈ [newAddr] ∨
          ownerOf (sortNodes (nodes ++ [newAddr])) k ∈ pre) ↔
            (ownerOf (sortNodes (nodes ++ [newAddr])) k = newAddr ∨
              (ownerOf (sortNodes (nodes ++ [newAddr])) k ≠ me ∧
                ownerOf (sortNodes (nodes ++ [newAddr])) k < a)) := by
        have hmem : ownerOf (sortNodes (nodes ++ [newAddr])) k ∈ nodes →
            (ownerOf (sortNodes (nodes ++ [newAddr])) k ∈ pre ↔
              (ownerOf (sortNodes (nodes ++ [newAddr])) k ≠ me ∧
                ownerOf (sortNodes (nodes ++ [newAddr])) k < a)) := by
          intro hin
          constructor
          · intro hmem
            have hfilter : ownerOf (sortNodes (nodes ++ [newAddr])) k ∈ nodes.filter (· ≠ me) := by
              rw [heq]
              exact List.mem_append_left _ hmem
            exact ⟨of_decide_eq_true (List.mem_filter.mp hfilter).2, (hbefore _ hfilter).mp hmem⟩
          · rintro ⟨hne, hlt⟩
            exact (hbefore _ (List.mem_filter.mpr ⟨hin, decide_eq_true hne⟩)).mpr hlt
        rw [List.mem_singleton]
        rcases howner with h | h
        · rw [hmem h]
        · simp [h]
      rw [hdone]
      simp [hstay, hme]

/-- `MeetKeeps` is exact for each key. -/
theorem meet_keeps_iff (hw : w.Cluster nodes) (hme : me ∈ nodes) {host portText : String} {port : ℕ}
    (hport : Text.parseU16 portText.toList = some port) (haddr : newAddr = s!"{host}:{port}")
    (hnew : newAddr ∉ nodes) (halone : w.Alone newAddr)
    (hlen : (sortNodes (nodes ++ [newAddr])).length ≤ numSlots) (depth : ℕ) {a k : String} {e : Entry}
    (ha : a ∈ nodes) (he : w.entry a k = some e) :
    (serve E (depth + 4) me (.command ["CLUSTER", "MEET", host, portText]) w).2.Keeps
      (sortNodes (nodes ++ [newAddr])) k e.value ↔ MeetKeeps nodes me newAddr k e.value := by
  obtain ⟨-, hshows⟩ := meet_run (E := E) hw hme hport haddr hnew halone hlen depth
  obtain ⟨b, e', hk, hexp, hiff⟩ := meet_key_iff E me hw hnew ha he
  have hne := (meet_lists hw hme hnew halone hlen).new_ne_nil
  exact (hshows.keeps_iff (fun _ h => h) hne hk hexp e.value).trans hiff

/-- A node joins : every key is kept if and only if each that moves reaches its new owner. -/
theorem meet_preserves_iff (E : ClusterEnv) (depth : ℕ) {w : World} {nodes : List String}
    (hw : w.Cluster nodes) {me : String} (hme : me ∈ nodes) {host portText newAddr : String}
    {port : ℕ} (hport : Text.parseU16 portText.toList = some port)
    (haddr : newAddr = s!"{host}:{port}") (hnew : newAddr ∉ nodes) (halone : w.Alone newAddr)
    (hok : (serve E (depth + 4) me (.command ["CLUSTER", "MEET", host, portText]) w).1 = .ok) :
    w.Preserved (serve E (depth + 4) me (.command ["CLUSTER", "MEET", host, portText]) w).2 nodes
        (sortNodes (nodes ++ [newAddr])) ↔
      ∀ a ∈ nodes, ∀ k e, w.entry a k = some e → MeetKeeps nodes me newAddr k e.value := by
  have hlen := length_le_of_meet_ok hw hme hport haddr hnew hok
  exact forall₅_congr fun a ha k e he =>
    meet_keeps_iff hw hme hport haddr hnew halone hlen depth ha he

end Meet

/-! ## A node leaves -/

/-- `FORGET` of `leaving`, served by `me`, keeps the key `k` with the value `v` : its owner stays
the same, or it is handed over after its new owner follows the new list, and all its scores are
numbers. The node that serves the command hands nothing over. -/
def ForgetKeeps (nodes : List String) (me leaving k : String) (v : Value) : Prop :=
  ownerOf (nodes.filter (· ≠ leaving)) k = ownerOf nodes k ∨
    ((ownerOf nodes k = leaving ∨ (ownerOf nodes k ≠ me ∧
      (ownerOf (nodes.filter (· ≠ leaving)) k = me ∨
        ownerOf (nodes.filter (· ≠ leaving)) k < ownerOf nodes k))) ∧ ¬ v.HasNaN)

section Forget

variable {E : ClusterEnv} {w : World} {nodes : List String} {me leaving : String}

/-- A node that leaves serves `DRAIN`. -/
theorem Midway.drain {all old new done : List String} {p : Placement String String Entry}
    (h : Midway w all old new done p) (hl : Lists all old new) (hall : me ∈ all) (hme : me ∉ done)
    (depth : ℕ) :
    ∃ n, (serve E (depth + 3) me (drainFrame (nodesList new)) w).1 = .integer n ∧
      (serve E (depth + 3) me (drainFrame (nodesList new)) w).2.Shows all (followed old new done)
        (handed E new done me p) := by
  obtain ⟨s, hs, -⟩ := h.shows me hall
  have hold : me ∈ old := by
    have hmem := h.member me hall
    rwa [followed_of_not_mem hme] at hmem
  rw [followed_of_not_mem hme] at hs
  have hnd : old.Nodup := hl.old_sorted.imp fun hlt => hlt.ne
  have hupper : Text.toUppercase "DRAIN" = "DRAIN" := by decide
  have hrouting : (ClusterConfig.forRouting new).nodes = new := sortNodes_of_sorted hl.new_sorted
  have hslots (k : String) (hk : ownerOf old k = me) (t : String) (_ : t ≠ me) :
      slotForKey (Utf8.toBytes k) ∈ (cfgFor old me).slotsToDrain (ClusterConfig.forRouting new) t ↔
        ownerOf new k = t := by
    rw [ClusterConfig.slotsToDrain, List.mem_filter, mem_mySlots_cfgFor hnd hold, hk,
      decide_eq_true_eq, ClusterConfig.nodeForSlot, ClusterConfig.slotToNode, hrouting]
    exact and_iff_right rfl
  have hshows := handOver_targets (E := E) (h.lists_ok hl) hall hnd hold hl.new_ne_nil hl.new_sub
    (ClusterConfig.forRouting new) hrouting _ hslots (E.env me) (E.env me) depth h.shows
    (h.movable hl hall hme)
  rw [h.hand_eq_handed hme] at hshows
  rw [drainFrame, serve_cluster E _ hs]
  simp only [cmdCluster, clusterDrain, bulkAsStr_clusterArgs, List.getElem?_cons_zero,
    List.getElem?_cons_succ, Option.map_some, Option.getD_some, hupper,
    splitNodes_nodesList hl.new_ne_nil hl.new_valid, myAddr_cfgFor hold]
  exact ⟨_, rfl, hshows⟩

/-- The lists of a `FORGET`. -/
theorem forget_lists (hw : w.Cluster nodes) (hme : me ∈ nodes) (hne : leaving ≠ me) :
    Lists nodes nodes (nodes.filter (· ≠ leaving)) where
  old_sorted := hw.sorted
  new_sorted := hw.sorted.sublist List.filter_sublist
  old_length := hw.length_le hme
  new_length := (List.length_filter_le _ _).trans (hw.length_le hme)
  new_sub _ ha := (List.mem_filter.mp ha).1
  new_valid a ha := hw.valid a (List.mem_filter.mp ha).1
  new_ne_nil := List.ne_nil_of_mem (List.mem_filter.mpr ⟨hme, decide_eq_true (Ne.symm hne)⟩)

/-- The node that serves `FORGET` follows the new list at once. -/
theorem midway_forget (hw : w.Cluster nodes) (hme : me ∈ nodes) (hne : leaving ≠ me) :
    Midway (w.setConfig me (cfgFor (nodes.filter (· ≠ leaving)) me)) nodes nodes
      (nodes.filter (· ≠ leaving)) [me] (w.placement nodes) := by
  have hnil : nodes ≠ [] := List.ne_nil_of_mem hme
  have hshows := hw.shows.setConfig (a := me) (nodes.filter (· ≠ leaving))
  have hfollowed : Function.update (fun _ => nodes) me (nodes.filter (· ≠ leaving)) =
      followed nodes (nodes.filter (· ≠ leaving)) [me] := by
    rw [← Midway.update_followed]
    congr 1
  rw [hfollowed] at hshows
  refine ⟨hshows, fun a ha => ?_, fun k a e hk => ?_, fun k a e hk _ => ?_⟩
  · by_cases heq : a = me
    · rw [heq, Midway.followed_of_mem (List.mem_singleton_self _)]
      exact List.mem_filter.mpr ⟨hme, decide_eq_true (Ne.symm hne)⟩
    · rwa [Midway.followed_of_not_mem (by simpa using heq)]
  · obtain ⟨ha, -, he⟩ := World.of_placement_eq_some hnil hk
    exact hw.noExpiry a ha k e he
  · obtain ⟨ha, how, he⟩ := World.of_placement_eq_some hnil hk
    exact ⟨how, hw.nonempty a ha k e he⟩

/-- The node that leaves keeps the old list. -/
theorem forget_shows (hw : w.Cluster nodes) (hme : me ∈ nodes) {arg : String}
    (harg : nodes.find? (fun a => nodeId a = arg ∨ a = arg) = some leaving) (hne : leaving ≠ me)
    (depth : ℕ) :
    (serve E (depth + 4) me (.command ["CLUSTER", "FORGET", arg]) w).1 = .ok ∧
      (serve E (depth + 4) me (.command ["CLUSTER", "FORGET", arg]) w).2.Shows nodes
        (followed nodes (nodes.filter (· ≠ leaving))
          ((nodes.filter fun a => a ≠ me ∧ a ≠ leaving).reverse ++ [me]))
        ((w.placement nodes).relay (ownerOf (nodes.filter (· ≠ leaving)))
          (fun a => resend (E.env a)) [me]
          (nodes.filter (fun a => a ≠ me ∧ a ≠ leaving) ++ [leaving])) := by
  have hl := forget_lists hw hme hne
  have hleaving : leaving ∈ nodes := List.mem_of_find?_eq_some harg
  obtain ⟨s, hs, -⟩ := hw.shows me hme
  have hnew : ClusterConfig.new (nodes.filter (· ≠ leaving)) me =
      .ok (cfgFor (nodes.filter (· ≠ leaving)) me) :=
    (new_eq_ok_iff hl.new_sorted).mpr
      ⟨List.mem_filter.mpr ⟨hme, decide_eq_true (Ne.symm hne)⟩, hl.new_length, rfl⟩
  have hpeers : ∀ a ∈ nodes.filter (fun a => a ≠ me ∧ a ≠ leaving), a ∈ nodes ∧ a ∉ [me] ∧
      a ∈ nodes.filter (· ≠ leaving) := by
    intro a ha
    obtain ⟨ha, hcond⟩ := List.mem_filter.mp ha
    obtain ⟨hme, hleave⟩ := of_decide_eq_true hcond
    exact ⟨ha, by simpa using hme, List.mem_filter.mpr ⟨ha, decide_eq_true hleave⟩⟩
  have hsynced := Midway.sendAll (E := E) hl depth (midway_forget hw hme hne)
    (hw.nodup.sublist List.filter_sublist) hpeers
  have hwaiting : leaving ∉ (nodes.filter fun a => a ≠ me ∧ a ≠ leaving).reverse ++ [me] := by
    simp [hne]
  obtain ⟨n, hreply, hdrained⟩ := hsynced.drain (E := E) hl hleaving hwaiting depth
  have hupper : Text.toUppercase "FORGET" = "FORGET" := by decide
  have hlen : ¬ (clusterArgs ["FORGET", arg]).length < 3 := by simp [clusterArgs]
  have hnodes : (cfgFor nodes me).nodes = nodes := rfl
  rw [Placement.relay_append, show depth + 4 = depth + 3 + 1 from rfl, serve_cluster E _ hs]
  simp only [cmdCluster, clusterForget, bulkAsStr_clusterArgs, List.getElem?_cons_zero,
    List.getElem?_cons_succ, Option.map_some, Option.getD_some, hupper, hlen, if_false, hnodes, harg,
    myAddr_cfgFor hme, hne, hnew, hreply]
  exact ⟨trivial, hdrained⟩

/-- Where each key is after a `FORGET`. -/
theorem forget_run (hw : w.Cluster nodes) (hme : me ∈ nodes) {arg : String}
    (harg : nodes.find? (fun a => nodeId a = arg ∨ a = arg) = some leaving) (hne : leaving ≠ me)
    (depth : ℕ) :
    (serve E (depth + 4) me (.command ["CLUSTER", "FORGET", arg]) w).1 = .ok ∧
      ∃ lists, (serve E (depth + 4) me (.command ["CLUSTER", "FORGET", arg]) w).2.Shows nodes lists
        ((w.placement nodes).relay (ownerOf (nodes.filter (· ≠ leaving)))
          (fun a => resend (E.env a)) [me]
          (nodes.filter (fun a => a ≠ me ∧ a ≠ leaving) ++ [leaving])) := by
  obtain ⟨hok, hshows⟩ := forget_shows (E := E) hw hme harg hne depth
  exact ⟨hok, _, hshows⟩

/-- The key `k`, which was at `a`, after `FORGET`. -/
theorem forget_key_iff (E : ClusterEnv) (hw : w.Cluster nodes) (hme : me ∈ nodes)
    (hleaving : leaving ∈ nodes) (hne : leaving ≠ me) {a k : String} {e : Entry} (ha : a ∈ nodes)
    (he : w.entry a k = some e) :
    ∃ b e', (w.placement nodes).relay (ownerOf (nodes.filter (· ≠ leaving)))
      (fun a => resend (E.env a)) [me]
      (nodes.filter (fun a => a ≠ me ∧ a ≠ leaving) ++ [leaving]) k = some (b, e') ∧
        e'.expiresAt = none ∧ ((b = ownerOf (nodes.filter (· ≠ leaving)) k ∧
          e'.value.content = e.value.content) ↔ ForgetKeeps nodes me leaving k e.value) := by
  have hk := hw.placement_eq_some ha he
  have hexp := hw.noExpiry a ha k e he
  have hempty := hw.nonempty a ha k e he
  have hown := hw.owned a ha k e he
  obtain ⟨howner, hstays⟩ := List.mem_filter.mp
    (ownerOf_mem (forget_lists hw hme hne).new_ne_nil k)
  have hstays : ownerOf (nodes.filter (· ≠ leaving)) k ≠ leaving := of_decide_eq_true hstays
  have hpeer {x : String} : x ∈ nodes.filter (fun a => a ≠ me ∧ a ≠ leaving) ↔
      x ∈ nodes ∧ x ≠ me ∧ x ≠ leaving := by
    rw [List.mem_filter, decide_eq_true_eq]
  rw [ForgetKeeps, hown]
  generalize nodes.filter (· ≠ leaving) = new at howner hstays ⊢
  by_cases hstay : ownerOf new k = a
  · refine ⟨a, e, ?_, hexp, by simp [hstay]⟩
    rw [← hstay] at hk ⊢
    exact Placement.relay_of_owner hk
  · by_cases hmine : a = me
    · subst hmine
      refine ⟨a, e, Placement.relay_of_not_mem hk ?_, hexp, ?_⟩
      · rw [List.mem_append, List.mem_singleton, hpeer]
        rintro (⟨-, h, -⟩ | rfl)
        · exact h rfl
        · exact hne rfl
      · simp [hstay, Ne.symm hstay, Ne.symm hne]
    · by_cases hleave : a = leaving
      · subst hleave
        obtain ⟨b, e', hrelay, hexp', hiff⟩ := relay_kept_iff E [me]
          (nodes.filter fun x => x ≠ me ∧ x ≠ a) [] hstay (by simp) List.not_mem_nil hk hexp hempty
        refine ⟨b, e', hrelay, hexp', hiff.trans ?_⟩
        have hdone : ownerOf new k ∈ [me] ∨ ownerOf new k ∈
            nodes.filter (fun x => x ≠ me ∧ x ≠ a) := by
          rw [hpeer, List.mem_singleton]
          by_cases h : ownerOf new k = me
          · exact .inl h
          · exact .inr ⟨howner, h, hstay⟩
        rw [and_iff_right hdone]
        simp [hstay]
      · obtain ⟨pre, post, heq, hpre, hpost, hbefore⟩ := List.exists_append_of_sorted
          (hw.sorted.sublist List.filter_sublist) (hpeer.mpr ⟨ha, hmine, hleave⟩)
        obtain ⟨b, e', hrelay, hexp', hiff⟩ := relay_kept_iff E [me] pre (post ++ [leaving]) hstay
          hpre (by simp [hpost, hleave]) hk hexp hempty
        refine ⟨b, e', by rw [heq, List.append_assoc]; exact hrelay, hexp', hiff.trans ?_⟩
        have hdone : (ownerOf new k ∈ [me] ∨
            ownerOf new k ∈ pre) ↔
              (ownerOf new k = me ∨
                ownerOf new k < a) := by
          rw [List.mem_singleton]
          by_cases h : ownerOf new k = me
          · simp [h]
          · rw [hbefore _ (hpeer.mpr ⟨howner, h, hstays⟩)]
        rw [hdone]
        simp [hstay, hmine, hleave]

/-- `ForgetKeeps` is exact for each key. -/
theorem forget_keeps_iff (hw : w.Cluster nodes) (hme : me ∈ nodes) {arg : String}
    (harg : nodes.find? (fun a => nodeId a = arg ∨ a = arg) = some leaving) (hne : leaving ≠ me)
    (depth : ℕ) {a k : String} {e : Entry} (ha : a ∈ nodes) (he : w.entry a k = some e) :
    (serve E (depth + 4) me (.command ["CLUSTER", "FORGET", arg]) w).2.Keeps
      (nodes.filter (· ≠ leaving)) k e.value ↔ ForgetKeeps nodes me leaving k e.value := by
  obtain ⟨-, lists, hshows⟩ := forget_run (E := E) hw hme harg hne depth
  obtain ⟨b, e', hk, hexp, hiff⟩ := forget_key_iff E hw hme (List.mem_of_find?_eq_some harg) hne ha he
  have hl := forget_lists hw hme hne
  exact (hshows.keeps_iff hl.new_sub hl.new_ne_nil hk hexp e.value).trans hiff

/-- A node leaves : every key is kept if and only if each that moves reaches its new owner. -/
theorem forget_preserves_iff (E : ClusterEnv) (depth : ℕ) {w : World} {nodes : List String}
    (hw : w.Cluster nodes) {me leaving arg : String} (hme : me ∈ nodes)
    (harg : nodes.find? (fun a => nodeId a = arg ∨ a = arg) = some leaving) (hne : leaving ≠ me) :
    (serve E (depth + 4) me (.command ["CLUSTER", "FORGET", arg]) w).1 = .ok ∧
      (w.Preserved (serve E (depth + 4) me (.command ["CLUSTER", "FORGET", arg]) w).2 nodes
          (nodes.filter (· ≠ leaving)) ↔
        ∀ a ∈ nodes, ∀ k e, w.entry a k = some e → ForgetKeeps nodes me leaving k e.value) :=
  ⟨(forget_run hw hme harg hne depth).1,
    forall₅_congr fun _ ha _ _ he => forget_keeps_iff hw hme harg hne depth ha he⟩

end Forget

/-! ## A cluster with one key -/

section OneKey

/-- The nodes of a list, with one key at its owner, and a spare server. -/
def oneKeyWorld (nodes : List String) (spare k : String) (v : Value) : World := fun a =>
  if a ∈ nodes then
    some ⟨if ownerOf nodes k = a then (∅ : Store).insert k ⟨v, none⟩ else ∅, cfgFor nodes a⟩
  else if a = spare then some ⟨∅, cfgFor [spare] spare⟩ else none

variable {nodes : List String} {spare k : String} {v : Value}

theorem entry_oneKeyWorld {a k' : String} {e : Entry} (ha : a ∈ nodes) :
    (oneKeyWorld nodes spare k v).entry a k' = some e ↔
      ownerOf nodes k = a ∧ k' = k ∧ e = ⟨v, none⟩ := by
  rw [World.entry, oneKeyWorld, if_pos ha, Option.bind_some]
  by_cases how : ownerOf nodes k = a
  · simp only [how, if_true, FinMap.getElem?_insert, ExtTreeMap.getElem?_empty,
      Option.ite_none_right_eq_some, Option.some.injEq, true_and]
    exact and_congr eq_comm eq_comm
  · simp [how]

/-- A cluster with one key. -/
theorem cluster_oneKeyWorld (hsorted : nodes.Pairwise (· < ·)) (hvalid : ∀ a ∈ nodes, ValidAddr a)
    (hlen : nodes.length ≤ numSlots) (hv : v.isEmpty = false) :
    (oneKeyWorld nodes spare k v).Cluster nodes where
  sorted := hsorted
  valid := hvalid
  up a ha := ⟨_, if_pos ha, (new_eq_ok_iff hsorted).mpr ⟨ha, hlen, rfl⟩⟩
  owned a ha k' e he := by
    obtain ⟨rfl, rfl, -⟩ := (entry_oneKeyWorld ha).mp he
    rfl
  noExpiry a ha k' e he := by
    obtain ⟨-, -, rfl⟩ := (entry_oneKeyWorld ha).mp he
    rfl
  nonempty a ha k' e he := by
    obtain ⟨-, -, rfl⟩ := (entry_oneKeyWorld ha).mp he
    exact hv

theorem alone_oneKeyWorld (hvalid : ValidAddr spare) (hspare : spare ∉ nodes) :
    (oneKeyWorld nodes spare k v).Alone spare where
  valid := hvalid
  up := ⟨cfgFor [spare] spare, by rw [oneKeyWorld, if_neg hspare, if_pos rfl],
    (new_eq_ok_iff (List.pairwise_singleton ..)).mpr
      ⟨List.mem_singleton_self _, by simp [numSlots], rfl⟩⟩

/-- The clock stands, and no peer is in a table. -/
def plainEnv : ClusterEnv := ⟨fun _ => .plain 0, fun _ => []⟩

theorem validAddr_small : ∀ a ∈ ["a:1", "b:1", "c:1"], ValidAddr a := by
  intro a ha
  have hall : ∀ a ∈ ["a:1", "b:1", "c:1"], a ≠ "" ∧ ',' ∉ a.toList ∧
      Text.trim a.toList = a.toList := by
    decide
  obtain ⟨h₁, h₂, h₃⟩ := hall a ha
  exact ⟨h₁, h₂, h₃⟩

/-- Two nodes with the key `k` at the first, and a third that is to join. -/
def twoNodes : World := oneKeyWorld ["a:1", "b:1"] "c:1" "k" (.string [])

theorem cluster_twoNodes : twoNodes.Cluster ["a:1", "b:1"] :=
  cluster_oneKeyWorld (by decide)
    (fun a ha => validAddr_small a (List.mem_of_mem_take (i := 2) ha)) (by decide) rfl

theorem alone_twoNodes : twoNodes.Alone "c:1" :=
  alone_oneKeyWorld (validAddr_small _ (by decide)) (by decide)

/-- `b` is asked to let `c` join : `a` pushes its key to `b`, which sends it back. -/
theorem meet_loses_key : ∃ (w : World) (nodes : List String) (me host port newAddr : String),
    w.Cluster nodes ∧ me ∈ nodes ∧ newAddr = host ++ ":" ++ port ∧ newAddr ∉ nodes ∧
      w.Alone newAddr ∧
      (serve plainEnv 4 me (.command ["CLUSTER", "MEET", host, port]) w).1 = .ok ∧
      ¬ w.Preserved (serve plainEnv 4 me (.command ["CLUSTER", "MEET", host, port]) w).2 nodes
        (sortNodes (nodes ++ [newAddr])) := by
  have hme : "b:1" ∈ ["a:1", "b:1"] := by decide
  have ha : "a:1" ∈ ["a:1", "b:1"] := by decide
  have hnew : "c:1" ∉ ["a:1", "b:1"] := by decide
  have haddr : "c:1" = toString "c" ++ toString ":" ++ toString 1 := by decide
  have hport : Text.parseU16 "1".toList = some 1 := by decide
  have hlen : (sortNodes (["a:1", "b:1"] ++ ["c:1"])).length ≤ numSlots := by decide
  have hrun := meet_run (E := plainEnv) cluster_twoNodes hme hport haddr hnew alone_twoNodes hlen 0
  have he : twoNodes.entry "a:1" "k" = some ⟨.string [], none⟩ :=
    (entry_oneKeyWorld ha).mpr ⟨by decide, rfl, rfl⟩
  have howners : ownerOf ["a:1", "b:1"] "k" = "a:1" ∧
      ownerOf (sortNodes (["a:1", "b:1"] ++ ["c:1"])) "k" = "b:1" := by
    decide
  refine ⟨twoNodes, ["a:1", "b:1"], "b:1", "c", "1", "c:1", cluster_twoNodes, hme, by decide, hnew,
    alone_twoNodes, hrun.1, fun hkeeps => ?_⟩
  have hkey := (meet_keeps_iff cluster_twoNodes hme hport haddr hnew alone_twoNodes hlen 0 ha he).mp
    (hkeeps "a:1" ha "k" _ he)
  rw [MeetKeeps, howners.1, howners.2] at hkey
  revert hkey
  simp

/-- `a` is asked : it pushes its key to `b` when `b` follows the new list. -/
theorem meet_keeps_key : twoNodes.Preserved
    (serve plainEnv 4 "a:1" (.command ["CLUSTER", "MEET", "c", "1"]) twoNodes).2 ["a:1", "b:1"]
      (sortNodes (["a:1", "b:1"] ++ ["c:1"])) := by
  have hme : "a:1" ∈ ["a:1", "b:1"] := by decide
  have hnew : "c:1" ∉ ["a:1", "b:1"] := by decide
  have haddr : "c:1" = toString "c" ++ toString ":" ++ toString 1 := by decide
  have hport : Text.parseU16 "1".toList = some 1 := by decide
  have hlen : (sortNodes (["a:1", "b:1"] ++ ["c:1"])).length ≤ numSlots := by decide
  have hrun := meet_run (E := plainEnv) cluster_twoNodes hme hport haddr hnew alone_twoNodes hlen 0
  have howner : ownerOf ["a:1", "b:1"] "k" = "a:1" := by decide
  refine (meet_preserves_iff plainEnv 0 cluster_twoNodes hme hport haddr hnew alone_twoNodes
    hrun.1).mpr fun a ha k e he => ?_
  obtain ⟨-, rfl, rfl⟩ := (entry_oneKeyWorld ha).mp he
  exact .inr ⟨.inr (.inl howner), not_false⟩

/-- Three nodes with the key `k` at the second. -/
def threeNodes : World := oneKeyWorld ["a:1", "b:1", "c:1"] "" "k" (.string [])

/-- The three nodes are a cluster. -/
theorem cluster_threeNodes : threeNodes.Cluster ["a:1", "b:1", "c:1"] :=
  cluster_oneKeyWorld (by decide) validAddr_small (by decide) rfl

/-- `b` is asked to forget `c` : its key belongs to `a` then, and stays at `b`. -/
theorem forget_loses_key : ∃ (w : World) (nodes : List String) (me leaving : String),
    w.Cluster nodes ∧ me ∈ nodes ∧
      nodes.find? (fun a => nodeId a = leaving ∨ a = leaving) = some leaving ∧ leaving ≠ me ∧
      (serve plainEnv 4 me (.command ["CLUSTER", "FORGET", leaving]) w).1 = .ok ∧
      ¬ w.Preserved (serve plainEnv 4 me (.command ["CLUSTER", "FORGET", leaving]) w).2 nodes
        (nodes.filter (· ≠ leaving)) := by
  have hme : "b:1" ∈ ["a:1", "b:1", "c:1"] := by decide
  have hne : "c:1" ≠ "b:1" := by decide
  have harg : ["a:1", "b:1", "c:1"].find? (fun a => nodeId a = "c:1" ∨ a = "c:1") = some "c:1" := by
    decide +kernel
  have he : threeNodes.entry "b:1" "k" = some ⟨.string [], none⟩ :=
    (entry_oneKeyWorld hme).mpr ⟨by decide, rfl, rfl⟩
  have howners : ownerOf ["a:1", "b:1", "c:1"] "k" = "b:1" ∧
      ownerOf (["a:1", "b:1", "c:1"].filter (· ≠ "c:1")) "k" = "a:1" := by
    decide
  have hrun := forget_run (E := plainEnv) cluster_threeNodes hme harg hne 0
  refine ⟨threeNodes, ["a:1", "b:1", "c:1"], "b:1", "c:1", cluster_threeNodes, hme, harg, hne, hrun.1,
    fun hkeeps => ?_⟩
  have hkey := (forget_keeps_iff cluster_threeNodes hme harg hne 0 hme he).mp
    (hkeeps "b:1" hme "k" _ he)
  rw [ForgetKeeps, howners.1, howners.2] at hkey
  revert hkey
  simp

/-- `a` is asked : `b` pushes the key to it. -/
theorem forget_keeps_key : threeNodes.Preserved
    (serve plainEnv 4 "a:1" (.command ["CLUSTER", "FORGET", "c:1"]) threeNodes).2
      ["a:1", "b:1", "c:1"] (["a:1", "b:1", "c:1"].filter (· ≠ "c:1")) := by
  have hme : "a:1" ∈ ["a:1", "b:1", "c:1"] := by decide
  have harg : ["a:1", "b:1", "c:1"].find? (fun a => nodeId a = "c:1" ∨ a = "c:1") = some "c:1" := by
    decide +kernel
  have howners : ownerOf ["a:1", "b:1", "c:1"] "k" = "b:1" ∧
      ownerOf (["a:1", "b:1", "c:1"].filter (· ≠ "c:1")) "k" = "a:1" := by
    decide
  refine (forget_preserves_iff plainEnv 0 cluster_threeNodes hme harg (by decide)).2.mpr
    fun a ha k e he => ?_
  obtain ⟨-, rfl, rfl⟩ := (entry_oneKeyWorld ha).mp he
  refine .inr ⟨.inr ⟨?_, .inl howners.2⟩, not_false⟩
  rw [howners.1]
  decide

end OneKey

end LoonyRedis
