import LoonyRedis.EmptyCollections
import LoonyRedis.Resharding
import LoonyRedis.SlotTables
import Mathlib.Tactic.Linarith
import Mathlib.Tactic.Ring

/-!
# Growing and shrinking

Nodes join and leave one after the other. A change that keeps every key leaves a cluster behind :
the members share the new list and hold only keys of slots they own. So a whole run of such
changes keeps the data, and adds none (`resharding_run_keeps`).

Which keys a change moves, and where, follows from the lengths of the slot ranges. If a node joins
before all others, keys move to the new node or to the next smaller one, and if the last node
leaves, they move to a smaller one. So these changes keep every key if the last node serves `MEET`
and the first one `FORGET`, as long as the ranges do not get too short (`growing_in_order_keeps`).

As in `Resharding`, the nodes hold no expiries and no empty collections, which a change would not
hand over as they are, and their calls are finished within the timeouts.
-/

namespace LoonyRedis

open Std Store

/-! ## Values with the same contents -/

section Contents

variable {v w : Value}

/-- Values of one content are empty together. -/
theorem Value.isEmpty_of_content (h : w.content = v.content) (hv : v.isEmpty = false) :
    w.isEmpty = false := by
  cases v <;> cases w <;> simp only [Value.content, Content.string.injEq, Content.list.injEq,
    Content.hash.injEq, Content.set.injEq, Content.zset.injEq, reduceCtorEq] at h
  · rfl
  · exact RedisList.isEmpty_eq_false.mpr (h ▸ RedisList.isEmpty_eq_false.mp hv)
  · exact RedisHash.isEmpty_eq_false.mpr (h ▸ RedisHash.isEmpty_eq_false.mp hv)
  · exact RedisSet.isEmpty_eq_false.mpr (h ▸ RedisSet.isEmpty_eq_false.mp hv)
  · exact h ▸ hv

/-- Values of one content have their NaN scores together. -/
theorem Value.hasNaN_of_content (h : w.content = v.content) (hw : w.HasNaN) : v.HasNaN := by
  cases v <;> cases w <;> simp only [Value.content, Content.zset.injEq, reduceCtorEq] at h
  all_goals first | exact hw.elim | exact h ▸ hw

end Contents

/-! ## The cluster after a change -/

namespace World

variable {w w' : World} {all old new nodes nodes' : List String} {lists : String → List String}
  {p : Placement String String Entry}

/-- The keys of `nodes'` in `w'` were there before. -/
def Stems (w w' : World) (nodes nodes' : List String) : Prop :=
  ∀ a ∈ nodes', ∀ k e', w'.entry a k = some e' →
    ∃ b ∈ nodes, ∃ e, w.entry b k = some e ∧ e'.value.content = e.value.content

/-- Nodes that follow one list and hold what belongs to them. -/
theorem Shows.cluster (h : w.Shows all lists p) (hl : Lists all old new)
    (hlists : ∀ a ∈ new, lists a = new) (hp : ∀ k a e, p k = some (a, e) →
      a = ownerOf new k ∧ e.expiresAt = none ∧ e.value.isEmpty = false) : w.Cluster new := by
  have hentry {a k : String} {e : Entry} (ha : a ∈ new) (he : w.entry a k = some e) :
      a = ownerOf new k ∧ e.expiresAt = none ∧ e.value.isEmpty = false := by
    rw [h.entry_eq (hl.new_sub a ha), Placement.onto_eq_some] at he
    exact hp k a e he
  refine ⟨hl.new_sorted, hl.new_valid, fun a ha => ?_, fun a ha k e he => (hentry ha he).1.symm,
    fun a ha k e he => (hentry ha he).2.1, fun a ha k e he => (hentry ha he).2.2⟩
  obtain ⟨s, hs, -⟩ := h a (hl.new_sub a ha)
  rw [hlists a ha] at hs
  exact ⟨_, hs, (new_eq_ok_iff hl.new_sorted).mpr ⟨ha, hl.new_length, rfl⟩⟩

/-- Every key of a cluster comes to its owner under the new list. -/
structure Arrives (w : World) (nodes new : List String) (p : Placement String String Entry) :
    Prop where
  key : ∀ a ∈ nodes, ∀ k e, w.entry a k = some e → ∃ e', p k = some (ownerOf new k, e') ∧
    e'.expiresAt = none ∧ e'.value.content = e.value.content
  none : ∀ k, w.placement nodes k = none → p k = none

/-- Then the nodes of the new list are a cluster with the same keys. -/
theorem Shows.arrived (h : w'.Shows all lists p) (hl : Lists all nodes new)
    (hlists : ∀ a ∈ new, lists a = new) (hw : w.Cluster nodes) (hne : nodes ≠ [])
    (harrives : w.Arrives nodes new p) :
    w'.Cluster new ∧ w.Preserved w' nodes new ∧ w.Stems w' nodes new := by
  have hfrom {k b : String} {e' : Entry} (hk : p k = some (b, e')) : ∃ a ∈ nodes, ∃ e,
      w.entry a k = some e ∧ b = ownerOf new k ∧ e'.expiresAt = none ∧
        e'.value.content = e.value.content := by
    cases hold : w.placement nodes k with
    | none =>
      rw [harrives.none k hold] at hk
      cases hk
    | some x =>
      obtain ⟨a, e⟩ := x
      obtain ⟨ha, -, he⟩ := of_placement_eq_some hne hold
      obtain ⟨e'', hk', hexp, hcontent⟩ := harrives.key a ha k e he
      rw [hk] at hk'
      obtain ⟨rfl, rfl⟩ := Prod.mk.inj (Option.some.inj hk')
      exact ⟨a, ha, e, he, rfl, hexp, hcontent⟩
  refine ⟨h.cluster hl hlists fun k b e' hk => ?_, fun a ha k e he => ?_, fun b hb k e' he' => ?_⟩
  · obtain ⟨a, ha, e, he, howner, hexp, hcontent⟩ := hfrom hk
    exact ⟨howner, hexp, Value.isEmpty_of_content hcontent (hw.nonempty a ha k e he)⟩
  · obtain ⟨e', hk, hexp, hcontent⟩ := harrives.key a ha k e he
    exact (h.keeps_iff hl.new_sub hl.new_ne_nil hk hexp e.value).mpr ⟨rfl, hcontent⟩
  · rw [h.entry_eq (hl.new_sub b hb), Placement.onto_eq_some] at he'
    obtain ⟨a, ha, e, he, -, -, hcontent⟩ := hfrom he'
    exact ⟨a, ha, e, he, hcontent⟩

end World

section Changes

variable {E : ClusterEnv} {w : World} {nodes : List String} {me newAddr leaving : String}

/-- A `MEET` that keeps every key. -/
theorem meet_cluster (hw : w.Cluster nodes) (hme : me ∈ nodes) {host portText : String} {port : ℕ}
    (hport : Text.parseU16 portText.toList = some port) (haddr : newAddr = s!"{host}:{port}")
    (hnew : newAddr ∉ nodes) (halone : w.Alone newAddr)
    (hlen : (sortNodes (nodes ++ [newAddr])).length ≤ numSlots) (depth : ℕ)
    (hkeeps : ∀ a ∈ nodes, ∀ k e, w.entry a k = some e → MeetKeeps nodes me newAddr k e.value) :
    (serve E (depth + 4) me (.command ["CLUSTER", "MEET", host, portText]) w).2.Cluster
        (sortNodes (nodes ++ [newAddr])) ∧
      w.Preserved (serve E (depth + 4) me (.command ["CLUSTER", "MEET", host, portText]) w).2 nodes
        (sortNodes (nodes ++ [newAddr])) ∧
      w.Stems (serve E (depth + 4) me (.command ["CLUSTER", "MEET", host, portText]) w).2 nodes
        (sortNodes (nodes ++ [newAddr])) := by
  obtain ⟨-, hshows⟩ := meet_run (E := E) hw hme hport haddr hnew halone hlen depth
  refine hshows.arrived (meet_lists hw hme hnew halone hlen) (fun a ha => ?_) hw
    (List.ne_nil_of_mem hme) ⟨fun a ha k e he => ?_, fun k hk => Placement.relay_of_none hk⟩
  · refine Midway.followed_of_mem ?_
    rcases (mem_meet_nodes hw hnew a).mp ha with ha | rfl
    · by_cases hself : a = me
      · exact hself ▸ List.mem_cons_self
      · refine List.mem_cons_of_mem _ (List.mem_append_left _ (List.mem_reverse.mpr ?_))
        exact List.mem_filter.mpr ⟨ha, decide_eq_true hself⟩
    · simp
  · obtain ⟨b, e', hk, hexp, hiff⟩ := meet_key_iff E me hw hnew ha he
    obtain ⟨rfl, hcontent⟩ := hiff.mpr (hkeeps a ha k e he)
    exact ⟨e', hk, hexp, hcontent⟩

/-- A `FORGET` that keeps every key. -/
theorem forget_cluster (hw : w.Cluster nodes) (hme : me ∈ nodes) {arg : String}
    (harg : nodes.find? (fun a => nodeId a = arg ∨ a = arg) = some leaving) (hne : leaving ≠ me)
    (depth : ℕ)
    (hkeeps : ∀ a ∈ nodes, ∀ k e, w.entry a k = some e → ForgetKeeps nodes me leaving k e.value) :
    (serve E (depth + 4) me (.command ["CLUSTER", "FORGET", arg]) w).2.Cluster
        (nodes.filter (· ≠ leaving)) ∧
      w.Preserved (serve E (depth + 4) me (.command ["CLUSTER", "FORGET", arg]) w).2 nodes
        (nodes.filter (· ≠ leaving)) ∧
      w.Stems (serve E (depth + 4) me (.command ["CLUSTER", "FORGET", arg]) w).2 nodes
        (nodes.filter (· ≠ leaving)) := by
  obtain ⟨-, hshows⟩ := forget_shows (E := E) hw hme harg hne depth
  refine hshows.arrived (forget_lists hw hme hne) (fun a ha => ?_) hw (List.ne_nil_of_mem hme)
    ⟨fun a ha k e he => ?_, fun k hk => Placement.relay_of_none hk⟩
  · refine Midway.followed_of_mem ?_
    obtain ⟨ha, hstays⟩ := List.mem_filter.mp ha
    by_cases hself : a = me
    · simp [hself]
    · refine List.mem_append_left _ (List.mem_reverse.mpr (List.mem_filter.mpr ⟨ha, ?_⟩))
      exact decide_eq_true ⟨hself, of_decide_eq_true hstays⟩
  · obtain ⟨b, e', hk, hexp, hiff⟩ := forget_key_iff E hw hme (List.mem_of_find?_eq_some harg) hne
      ha he
    obtain ⟨rfl, hcontent⟩ := hiff.mpr (hkeeps a ha k e he)
    exact ⟨e', hk, hexp, hcontent⟩

end Changes

/-! ## The ranges of the slots -/

section Lists

variable {n : ℕ}

/-- The ranges of `n + 1` nodes are long enough that none ends below the range before it among `n`
nodes. -/
def Balanced (n : ℕ) : Prop := (n - 1) * (numSlots / n) ≤ n * (numSlots / (n + 1))

/-- The numbers are compared. -/
instance (n : ℕ) : Decidable (Balanced n) := Nat.decLe _ _

/-- Up to 25 nodes the slots are spread evenly enough. -/
theorem balanced_of_le : ∀ n ≤ 25, Balanced n := by
  decide

/-- With a node more, every chunk begins no later. -/
theorem Balanced.le (h : Balanced n) {i : ℕ} (hi : i + 2 ≤ n) :
    (i + 1) * (numSlots / n) ≤ (i + 2) * (numSlots / (n + 1)) := by
  unfold Balanced at h
  generalize numSlots / n = base at h ⊢
  generalize numSlots / (n + 1) = base' at h ⊢
  obtain ⟨m, rfl⟩ : ∃ m, n = m + 1 := ⟨n - 1, by omega⟩
  rw [Nat.add_sub_cancel] at h
  refine Nat.le_of_mul_le_mul_left (c := m) ?_ (by omega)
  calc m * ((i + 1) * base) = (i + 1) * (m * base) := by ring
    _ ≤ (i + 1) * ((m + 1) * base') := Nat.mul_le_mul_left _ h
    _ = ((i + 1) * (m + 1)) * base' := by ring
    _ ≤ (m * (i + 2)) * base' := Nat.mul_le_mul_right _ (by nlinarith)
    _ = m * ((i + 2) * base') := by ring

variable {slot : ℕ}

/-- With one more node a slot goes to the same index or a larger one. -/
theorem slotTable_le_succ (hn : 1 ≤ n) (hle : n + 1 ≤ numSlots) :
    slotTable n slot ≤ slotTable (n + 1) slot := by
  have hlt : slotTable n slot < n := slotTable_lt hn
  have hlt' : slotTable (n + 1) slot < n + 1 := slotTable_lt (Nat.succ_pos n)
  have hold := (slotTable_eq_iff hlt (by omega)).mp rfl
  have hnew := (slotTable_eq_iff hlt' hle).mp rfl
  by_contra! hcon
  have hbase : numSlots / (n + 1) ≤ numSlots / n := Nat.div_le_div_left (Nat.le_succ n) hn
  have hend := hnew.2 (by omega)
  have hmul : (slotTable (n + 1) slot + 1) * (numSlots / (n + 1)) ≤
      slotTable n slot * (numSlots / n) := Nat.mul_le_mul hcon hbase
  omega

/-- And to the next one at most. -/
theorem slotTable_succ_le (hn : 1 ≤ n) (hle : n + 1 ≤ numSlots) (hbal : Balanced n) :
    slotTable (n + 1) slot ≤ slotTable n slot + 1 := by
  have hlt : slotTable n slot < n := slotTable_lt hn
  have hlt' : slotTable (n + 1) slot < n + 1 := slotTable_lt (Nat.succ_pos n)
  have hold := (slotTable_eq_iff hlt (by omega)).mp rfl
  have hnew := (slotTable_eq_iff hlt' hle).mp rfl
  by_contra! hcon
  have hend := hold.2 (by omega)
  have hmul : (slotTable n slot + 2) * (numSlots / (n + 1)) ≤
      slotTable (n + 1) slot * (numSlots / (n + 1)) := Nat.mul_le_mul_right _ hcon
  have hgap := hbal.le (i := slotTable n slot) (by omega)
  omega

variable {nodes : List String} {newAddr leaving : String}

/-- An address before all others is sorted first. -/
theorem sortNodes_append (hsorted : nodes.Pairwise (· < ·)) (hfirst : ∀ a ∈ nodes, newAddr < a) :
    sortNodes (nodes ++ [newAddr]) = newAddr :: nodes := by
  have hcons : (newAddr :: nodes).Pairwise (· < ·) := List.pairwise_cons.mpr ⟨hfirst, hsorted⟩
  have hperm : (nodes ++ [newAddr]).Perm (newAddr :: nodes) :=
    List.perm_append_comm
  have hnd : (nodes ++ [newAddr]).Nodup :=
    hperm.nodup_iff.mpr (hcons.imp fun hlt => hlt.ne)
  rw [sortNodes_eq_of_nodup hnd]
  exact ((List.perm_insertionSort _ _).trans hperm).eq_of_pairwise
    (fun a b _ _ hab hba => absurd hab hba.not_gt)
    (sortNodes_eq_of_nodup hnd ▸ sorted_sortNodes_of_nodup hnd) hcons

/-- In a sorted list the places follow the order. -/
theorem lt_of_getElem? (hsorted : nodes.Pairwise (· < ·)) {i j : ℕ} {a b : String}
    (ha : nodes[i]? = some a) (hb : nodes[j]? = some b) (hij : i < j) : a < b := by
  obtain ⟨hi, rfl⟩ := List.getElem?_eq_some_iff.mp ha
  obtain ⟨hj, rfl⟩ := List.getElem?_eq_some_iff.mp hb
  exact List.pairwise_iff_getElem.mp hsorted i j hi hj hij

/-- The owner of a key is the node of its slot. -/
theorem getElem?_ownerOf (hne : nodes ≠ []) (key : String) :
    nodes[slotTable nodes.length (slotForKey (Utf8.toBytes key))]? = some (ownerOf nodes key) := by
  obtain ⟨h, heq⟩ := ownerOf_eq_getElem hne key
  rw [List.getElem?_eq_getElem h, heq]
  rfl

/-- Leaving the last node out takes it off the end. -/
theorem filter_ne_last (hnd : nodes.Nodup) (hlast : nodes.getLast? = some leaving) :
    ∃ init, nodes = init ++ [leaving] ∧ nodes.filter (· ≠ leaving) = init := by
  obtain ⟨init, rfl⟩ : ∃ init, nodes = init ++ [leaving] :=
    List.getLast?_eq_some_iff.mp hlast
  refine ⟨init, rfl, ?_⟩
  have hnot : leaving ∉ init := fun h =>
    (List.nodup_append.mp hnd).2.2 _ h _ (List.mem_singleton_self _) rfl
  have hinit : init.filter (· ≠ leaving) = init :=
    List.filter_eq_self.mpr fun a ha => decide_eq_true (ne_of_mem_of_not_mem ha hnot)
  rw [List.filter_append, hinit]
  simp

end Lists

/-! ## Runs -/

/-- A membership change, and the node that serves it. -/
inductive Reshard
  | meet (me host portText : String)
  | forget (me arg : String)

namespace Reshard

variable (E : ClusterEnv) (depth : ℕ)

/-- The reply, and what the change does to the nodes. -/
def serveOn (w : World) : Reshard → Frame × World
  | .meet me host portText =>
    serve E (depth + 4) me (.command ["CLUSTER", "MEET", host, portText]) w
  | .forget me arg => serve E (depth + 4) me (.command ["CLUSTER", "FORGET", arg]) w

/-- The members afterwards. -/
def members (nodes : List String) : Reshard → Option (List String)
  | .meet _ host portText =>
    (Text.parseU16 portText.toList).map fun port => sortNodes (nodes ++ [s!"{host}:{port}"])
  | .forget _ arg =>
    (nodes.find? fun a => nodeId a = arg ∨ a = arg).map fun leaving => nodes.filter (· ≠ leaving)

/-- The change is made, and the reply is `OK`. -/
def step (x : World × List String) (c : Reshard) : Option (World × List String) :=
  if (c.serveOn E depth x.1).1 = .ok then
    (c.members x.2).map fun nodes => ((c.serveOn E depth x.1).2, nodes)
  else none

/-- The change keeps every key. -/
def Keeps (x : World × List String) : Reshard → Prop
  | .meet me host portText => me ∈ x.2 ∧ ∃ port, Text.parseU16 portText.toList = some port ∧
    s!"{host}:{port}" ∉ x.2 ∧ x.1.Alone s!"{host}:{port}" ∧
      ∀ a ∈ x.2, ∀ k e, x.1.entry a k = some e → MeetKeeps x.2 me s!"{host}:{port}" k e.value
  | .forget me arg => me ∈ x.2 ∧ ∃ leaving,
    x.2.find? (fun a => nodeId a = arg ∨ a = arg) = some leaving ∧ leaving ≠ me ∧
      ∀ a ∈ x.2, ∀ k e, x.1.entry a k = some e → ForgetKeeps x.2 me leaving k e.value

/-- The last node serves `MEET` of an address before all others, or the first one serves `FORGET`
of the last. -/
def Ordered (x : World × List String) : Reshard → Prop
  | .meet me host portText => x.2.getLast? = some me ∧ Balanced x.2.length ∧
    ∃ port, Text.parseU16 portText.toList = some port ∧ (∀ a ∈ x.2, s!"{host}:{port}" < a) ∧
      x.1.Alone s!"{host}:{port}"
  | .forget me arg => x.2.head? = some me ∧ ∃ leaving,
    x.2.find? (fun a => nodeId a = arg ∨ a = arg) = some leaving ∧ x.2.getLast? = some leaving ∧
      leaving ≠ me

variable {E depth} {w w' w'' : World} {nodes nodes' nodes'' : List String} {c : Reshard}

/-- A step that keeps its keys keeps the cluster. -/
theorem step_keeps (hw : w.Cluster nodes) (hkeeps : c.Keeps (w, nodes))
    (hstep : c.step E depth (w, nodes) = some (w', nodes')) :
    w'.Cluster nodes' ∧ w.Preserved w' nodes nodes' ∧ w.Stems w' nodes nodes' := by
  unfold step at hstep
  split at hstep
  · next hok =>
    obtain ⟨new, hnew, heq⟩ := Option.map_eq_some_iff.mp hstep
    obtain ⟨rfl, rfl⟩ := Prod.mk.inj heq
    cases c with
    | meet me host portText =>
      obtain ⟨hme, port, hport, hout, halone, hkeys⟩ := hkeeps
      obtain rfl : sortNodes (nodes ++ [s!"{host}:{port}"]) = new := by
        simpa [members, hport] using hnew
      have hlen := length_le_of_meet_ok hw hme hport rfl hout hok
      exact meet_cluster hw hme hport rfl hout halone hlen depth hkeys
    | forget me arg =>
      obtain ⟨hme, leaving, harg, hne, hkeys⟩ := hkeeps
      obtain rfl : nodes.filter (· ≠ leaving) = new := by
        rw [members, harg] at hnew
        exact Option.some.inj hnew
      exact forget_cluster hw hme harg hne depth hkeys
  · cases hstep

end Reshard

namespace World

variable {w w' w'' : World} {nodes nodes' nodes'' : List String}

theorem Cluster.preserved_refl (hw : w.Cluster nodes) : w.Preserved w nodes nodes := by
  intro a ha k e he
  refine ⟨a, ha, hw.owned a ha k e he, fun b hb => ⟨fun hsome => ?_, ?_⟩, e, he, rfl,
    hw.noExpiry a ha k e he⟩
  · obtain ⟨e', he'⟩ := Option.isSome_iff_exists.mp hsome
    exact (hw.owned b hb k e' he').symm.trans (hw.owned a ha k e he)
  · rintro rfl
    exact Option.isSome_of_eq_some he

/-- What is preserved twice is preserved. -/
theorem Preserved.trans (h : w.Preserved w' nodes nodes') (h' : w'.Preserved w'' nodes' nodes'') :
    w.Preserved w'' nodes nodes'' := by
  intro a ha k e he
  obtain ⟨b, hb, -, -, e', he', hcontent, -⟩ := h a ha k e he
  obtain ⟨d, hd, howner, honly, e'', he'', hcontent', hexp⟩ := h' b hb k e' he'
  exact ⟨d, hd, howner, honly, e'', he'', hcontent'.trans hcontent, hexp⟩

/-- What stems from entries that stem from older ones stems from these. -/
theorem Stems.trans (h : w.Stems w' nodes nodes') (h' : w'.Stems w'' nodes' nodes'') :
    w.Stems w'' nodes nodes'' := by
  intro a ha k e'' he''
  obtain ⟨b, hb, e', he', hcontent'⟩ := h' a ha k e'' he''
  obtain ⟨d, hd, e, he, hcontent⟩ := h b hb k e' he'
  exact ⟨d, hd, e, he, hcontent'.trans hcontent⟩

end World

namespace Reshard

variable {E : ClusterEnv} {depth : ℕ} {w w' : World} {nodes nodes' : List String} {c : Reshard}
  {x : World × List String}

/-- The changes of a run keep every key, if each does that is made in a cluster with these keys. -/
theorem run_keeps {ok : World × List String → Reshard → Prop} (hw : w.Cluster nodes)
    (hok : ∀ x c, x.1.Cluster x.2 → w.Stems x.1 nodes x.2 → ok x c → c.Keeps x)
    (h : Runs.Run (fun x c => step E depth x c) ok (w, nodes) x) :
    x.1.Cluster x.2 ∧ w.Preserved x.1 nodes x.2 ∧ w.Stems x.1 nodes x.2 := by
  refine h.invariant (I := fun x => x.1.Cluster x.2 ∧ w.Preserved x.1 nodes x.2 ∧
    w.Stems x.1 nodes x.2) ?_ ⟨hw, hw.preserved_refl, fun a ha k e he => ⟨a, ha, e, he, rfl⟩⟩
  rintro ⟨w₁, nodes₁⟩ c ⟨w₂, nodes₂⟩ ⟨hcluster, hpreserved, hstems⟩ hc hstep
  obtain ⟨hcluster', hpreserved', hstems'⟩ := step_keeps hcluster
    (hok _ c hcluster hstems hc) hstep
  exact ⟨hcluster', hpreserved.trans hpreserved', hstems.trans hstems'⟩

end Reshard

section Ordered

variable {nodes : List String} {me newAddr leaving : String} {v : Value}

/-- There are more slots than nodes. -/
theorem Balanced.succ_le {n : ℕ} (h : Balanced n) (hle : n ≤ numSlots) : n + 1 ≤ numSlots := by
  by_contra! hcon
  obtain rfl : n = numSlots := by omega
  exact absurd h (by decide)

/-- A key moves to the new node, to a smaller one, or not at all. -/
theorem meetKeeps_of_first (hsorted : nodes.Pairwise (· < ·)) (hlast : nodes.getLast? = some me)
    (hfirst : ∀ a ∈ nodes, newAddr < a) (hle : nodes.length ≤ numSlots)
    (hbal : Balanced nodes.length) (hnan : ¬ v.HasNaN) (k : String) :
    MeetKeeps nodes me newAddr k v := by
  have hne : nodes ≠ [] := by
    rintro rfl
    cases hlast
  have hpos : 1 ≤ nodes.length := List.length_pos_iff.mpr hne
  have hold := getElem?_ownerOf hne k
  have hnew := getElem?_ownerOf (List.cons_ne_nil newAddr nodes) k
  have hlt : slotTable nodes.length (slotForKey (Utf8.toBytes k)) < nodes.length :=
    slotTable_lt hpos
  have hstep : slotTable (nodes.length + 1) (slotForKey (Utf8.toBytes k)) ≤
      slotTable nodes.length (slotForKey (Utf8.toBytes k)) + 1 :=
    slotTable_succ_le hpos (hbal.succ_le hle) hbal
  rw [MeetKeeps, sortNodes_append hsorted hfirst]
  rw [List.length_cons] at hnew
  generalize slotTable nodes.length (slotForKey (Utf8.toBytes k)) = i at hold hstep hlt
  generalize slotTable (nodes.length + 1) (slotForKey (Utf8.toBytes k)) = j at hnew hstep
  rw [List.getLast?_eq_getElem?] at hlast
  cases j with
  | zero => exact .inr ⟨.inl (Option.some.inj hnew).symm, hnan⟩
  | succ j =>
    rw [List.getElem?_cons_succ] at hnew
    rcases (Nat.le_of_succ_le_succ hstep).lt_or_eq with hmove | rfl
    · refine .inr ⟨.inr (.inr ⟨?_, lt_of_getElem? hsorted hnew hold hmove⟩), hnan⟩
      exact (lt_of_getElem? hsorted hnew hlast (by omega)).ne
    · exact .inl (Option.some.inj (hnew.symm.trans hold))

/-- A key moves to a smaller node or not at all. -/
theorem forgetKeeps_of_last (hsorted : nodes.Pairwise (· < ·)) (hfirst : nodes.head? = some me)
    (hlast : nodes.getLast? = some leaving) (hne : leaving ≠ me) (hle : nodes.length ≤ numSlots)
    (hnan : ¬ v.HasNaN) (k : String) : ForgetKeeps nodes me leaving k v := by
  obtain ⟨init, rfl, hfilter⟩ := filter_ne_last (hsorted.imp fun hlt => hlt.ne) hlast
  have hinit : init ≠ [] := by
    rintro rfl
    exact hne (Option.some.inj hfirst)
  have hpos : 1 ≤ init.length := List.length_pos_iff.mpr hinit
  have hold := getElem?_ownerOf (List.append_ne_nil_of_left_ne_nil hinit [leaving]) k
  have hnew := getElem?_ownerOf hinit k
  have hlt : slotTable init.length (slotForKey (Utf8.toBytes k)) < init.length := slotTable_lt hpos
  rw [List.length_append, List.length_singleton] at hle hold
  have hstep : slotTable init.length (slotForKey (Utf8.toBytes k)) ≤
      slotTable (init.length + 1) (slotForKey (Utf8.toBytes k)) :=
    slotTable_le_succ hpos hle
  rw [ForgetKeeps, hfilter]
  generalize slotTable (init.length + 1) (slotForKey (Utf8.toBytes k)) = i at hold hstep
  generalize slotTable init.length (slotForKey (Utf8.toBytes k)) = j at hnew hstep hlt
  rw [List.head?_eq_getElem?] at hfirst
  have hnew' : (init ++ [leaving])[j]? = some (ownerOf init k) := by
    rw [List.getElem?_append_left hlt, hnew]
  rcases hstep.lt_or_eq with hmove | rfl
  · refine .inr ⟨.inr ⟨?_, .inr (lt_of_getElem? hsorted hnew' hold hmove)⟩, hnan⟩
    exact (lt_of_getElem? hsorted hfirst hold (by omega)).ne'
  · exact .inl (Option.some.inj (hnew'.symm.trans hold))

/-- A reshard in order keeps all keys. -/
theorem Reshard.Ordered.keeps {x : World × List String} {c : Reshard} (hw : x.1.Cluster x.2)
    (hnan : ∀ a ∈ x.2, ∀ k e, x.1.entry a k = some e → ¬ e.value.HasNaN) (h : c.Ordered x) :
    c.Keeps x := by
  cases c with
  | meet me host portText =>
    obtain ⟨hlast, hbal, port, hport, hfirst, halone⟩ := h
    have hme : me ∈ x.2 := List.mem_of_getLast? hlast
    refine ⟨hme, port, hport, fun hin => (hfirst _ hin).false, halone, fun a ha k e he => ?_⟩
    exact meetKeeps_of_first hw.sorted hlast hfirst (hw.length_le hme) hbal (hnan a ha k e he) k
  | forget me arg =>
    obtain ⟨hfirst, leaving, harg, hlast, hne⟩ := h
    have hme : me ∈ x.2 := List.mem_of_mem_head? hfirst
    refine ⟨hme, leaving, harg, hne, fun a ha k e he => ?_⟩
    exact forgetKeeps_of_last hw.sorted hfirst hlast hne (hw.length_le hme) (hnan a ha k e he) k

end Ordered

/-- Nodes join and leave one after the other, and each change keeps the keys that are there then :
in the end the members are a cluster, with all keys that there were and no others. -/
theorem resharding_run_keeps (E : ClusterEnv) (depth : ℕ) {w w' : World}
    {nodes nodes' : List String} (hw : w.Cluster nodes)
    (h : Runs.Run (Reshard.step E depth) Reshard.Keeps (w, nodes) (w', nodes')) :
    w'.Cluster nodes' ∧ w.Preserved w' nodes nodes' ∧ w.Stems w' nodes nodes' :=
  Reshard.run_keeps hw (fun _ _ _ _ hkeeps => hkeeps) h

/-- A cluster without scores that are not numbers grows at its beginning, where the last node serves
`MEET`, and shrinks at its end, where the first one serves `FORGET` : no key is lost. -/
theorem growing_in_order_keeps (E : ClusterEnv) (depth : ℕ) {w w' : World}
    {nodes nodes' : List String} (hw : w.Cluster nodes)
    (hnan : ∀ a ∈ nodes, ∀ k e, w.entry a k = some e → ¬ e.value.HasNaN)
    (h : Runs.Run (Reshard.step E depth) Reshard.Ordered (w, nodes) (w', nodes')) :
    w'.Cluster nodes' ∧ w.Preserved w' nodes nodes' ∧ w.Stems w' nodes nodes' := by
  refine Reshard.run_keeps hw (fun x c hcluster hstems hc => hc.keeps hcluster ?_) h
  intro a ha k e he hbad
  obtain ⟨b, hb, e', he', hcontent⟩ := hstems a ha k e he
  exact hnan b hb k e' he' (Value.hasNaN_of_content hcontent hbad)

section Three

/-- A reshard that is answered with OK changes the members. -/
theorem Reshard.step_of_ok {E : ClusterEnv} {depth : ℕ} {w : World} {nodes new : List String}
    {c : Reshard} (hok : (c.serveOn E depth w).1 = .ok) (hnew : c.members nodes = some new) :
    c.step E depth (w, nodes) = some ((c.serveOn E depth w).2, new) := by
  rw [step, if_pos hok, hnew]
  rfl

/-- `a` lets `c` join and forgets it again. -/
theorem resharding_run_keeps_two : ∃ w : World, w.Cluster ["a:1", "b:1"] ∧
    twoNodes.Preserved w ["a:1", "b:1"] ["a:1", "b:1"] := by
  have hme : "a:1" ∈ ["a:1", "b:1"] := by decide
  have hnew : "c:1" ∉ ["a:1", "b:1"] := by decide
  have hport : Text.parseU16 "1".toList = some 1 := by decide
  have haddr : "c:1" = toString "c" ++ toString ":" ++ toString 1 := by decide
  have hlen : (sortNodes (["a:1", "b:1"] ++ ["c:1"])).length ≤ numSlots := by decide
  have howners : ownerOf ["a:1", "b:1"] "k" = "a:1" ∧
      ownerOf ["a:1", "b:1", "c:1"] "k" = "b:1" := by
    decide
  have harg : ["a:1", "b:1", "c:1"].find? (fun a => nodeId a = "c:1" ∨ a = "c:1") = some "c:1" := by
    decide +kernel
  have hmeet : Reshard.Keeps (twoNodes, ["a:1", "b:1"]) (.meet "a:1" "c" "1") := by
    refine ⟨hme, 1, hport, hnew, alone_twoNodes, fun a ha k e he => ?_⟩
    obtain ⟨-, rfl, rfl⟩ := (entry_oneKeyWorld ha).mp he
    exact .inr ⟨.inr (.inl howners.1), not_false⟩
  have hjoined : Reshard.members ["a:1", "b:1"] (.meet "a:1" "c" "1") =
      some ["a:1", "b:1", "c:1"] := by
    decide
  have hleft : Reshard.members ["a:1", "b:1", "c:1"] (.forget "a:1" "c:1") =
      some ["a:1", "b:1"] := by
    rw [Reshard.members, harg]
    decide
  have hstep := Reshard.step_of_ok (c := .meet "a:1" "c" "1")
    (meet_run (E := plainEnv) cluster_twoNodes hme hport haddr hnew alone_twoNodes hlen 0).1 hjoined
  obtain ⟨hcluster, -, hstems⟩ := Reshard.step_keeps cluster_twoNodes hmeet hstep
  have hforget : Reshard.Keeps ((Reshard.serveOn plainEnv 0 twoNodes (.meet "a:1" "c" "1")).2,
      ["a:1", "b:1", "c:1"]) (.forget "a:1" "c:1") := by
    refine ⟨by decide, "c:1", harg, by decide, fun a ha k e he => .inr ?_⟩
    obtain ⟨b, hb, e', he', hcontent⟩ := hstems a ha k e he
    obtain ⟨-, rfl, rfl⟩ := (entry_oneKeyWorld hb).mp he'
    refine ⟨.inr ⟨?_, .inl (by decide)⟩, fun hnan => Value.hasNaN_of_content hcontent hnan⟩
    rw [howners.2]
    decide
  have hstep' := Reshard.step_of_ok (c := .forget "a:1" "c:1")
    (forget_run (E := plainEnv) hcluster (by decide) harg (by decide) 0).1 hleft
  obtain ⟨hcluster', hpreserved, -⟩ := resharding_run_keeps plainEnv 0 cluster_twoNodes
    (.tail (.tail (.refl _) hmeet hstep) hforget hstep')
  exact ⟨_, hcluster', hpreserved⟩

/-- The key `k` at the first of two nodes, and a third that is to join before them. -/
def lastTwo : World := oneKeyWorld ["b:1", "c:1"] "a:1" "k" (.string [])

/-- `c` lets `a` join, and then `a` forgets `c`. -/
theorem growing_in_order_keeps_two : ∃ w : World, w.Cluster ["a:1", "b:1"] ∧
    lastTwo.Preserved w ["b:1", "c:1"] ["a:1", "b:1"] := by
  have hme : "c:1" ∈ ["b:1", "c:1"] := by decide
  have hnew : "a:1" ∉ ["b:1", "c:1"] := by decide
  have hport : Text.parseU16 "1".toList = some 1 := by decide
  have haddr : "a:1" = toString "a" ++ toString ":" ++ toString 1 := by decide
  have hlen : (sortNodes (["b:1", "c:1"] ++ ["a:1"])).length ≤ numSlots := by decide
  have harg : ["a:1", "b:1", "c:1"].find? (fun a => nodeId a = "c:1" ∨ a = "c:1") = some "c:1" := by
    decide +kernel
  have hcluster : lastTwo.Cluster ["b:1", "c:1"] :=
    cluster_oneKeyWorld (by decide)
      (fun a ha => validAddr_small a (List.mem_of_mem_drop (i := 1) ha)) (by decide) rfl
  have halone : lastTwo.Alone "a:1" := alone_oneKeyWorld (validAddr_small _ (by decide)) hnew
  have hnan : ∀ a ∈ ["b:1", "c:1"], ∀ k e, lastTwo.entry a k = some e → ¬ e.value.HasNaN := by
    intro a ha k e he
    obtain ⟨-, rfl, rfl⟩ := (entry_oneKeyWorld ha).mp he
    exact not_false
  have hmeet : Reshard.Ordered (lastTwo, ["b:1", "c:1"]) (.meet "c:1" "a" "1") :=
    ⟨rfl, balanced_of_le _ (by decide), 1, hport, by decide, halone⟩
  have hjoined : Reshard.members ["b:1", "c:1"] (.meet "c:1" "a" "1") =
      some ["a:1", "b:1", "c:1"] := by
    decide
  have hleft : Reshard.members ["a:1", "b:1", "c:1"] (.forget "a:1" "c:1") =
      some ["a:1", "b:1"] := by
    rw [Reshard.members, harg]
    decide
  have hstep := Reshard.step_of_ok (c := .meet "c:1" "a" "1")
    (meet_run (E := plainEnv) hcluster hme hport haddr hnew halone hlen 0).1 hjoined
  obtain ⟨hcluster', -, -⟩ := Reshard.step_keeps hcluster (hmeet.keeps hcluster hnan) hstep
  have hforget : Reshard.Ordered ((Reshard.serveOn plainEnv 0 lastTwo (.meet "c:1" "a" "1")).2,
      ["a:1", "b:1", "c:1"]) (.forget "a:1" "c:1") := ⟨rfl, "c:1", harg, rfl, by decide⟩
  have hstep' := Reshard.step_of_ok (c := .forget "a:1" "c:1")
    (forget_run (E := plainEnv) hcluster' (by decide) harg (by decide) 0).1 hleft
  obtain ⟨hend, hpreserved, -⟩ := growing_in_order_keeps plainEnv 0 hcluster hnan
    (.tail (.tail (.refl _) hmeet hstep) hforget hstep')
  exact ⟨_, hend, hpreserved⟩

end Three

end LoonyRedis
