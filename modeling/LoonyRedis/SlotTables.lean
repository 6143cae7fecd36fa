import LoonyRedis.Migration

/-!
# The slot table

A `ClusterConfig` of the program holds a table with the owner of each slot, which it builds
when the node list is read. `ClusterConfig` has no such field here, as `slotTable` computes
the entries. This module builds the table the way the program does, for a node of the
cluster (`TableConfig.new`) and for a node that leaves it (`TableConfig.forRouting`), and
proves that the two descriptions agree (`new_eq`, `forRouting_eq`).

The nodes of a cluster do not compare their tables. They agree on the owners because the
table depends on the set of the addresses alone (`sortNodes_congr`).
-/

namespace LoonyRedis

open Std

/-! ## Filling a table by chunks -/

section Chunks

variable {α : Type} {size : ℕ} {f : ℕ → α}

/-- Cut a list into chunks of `size` elements, and set each element to `f` of the number of
its chunk, from `idx` on. There are at most `fuel` chunks. -/
def fillChunks (size : ℕ) (f : ℕ → α) : ℕ → ℕ → List α → List α
  | 0, _, l => l
  | fuel + 1, idx, l =>
    (l.take size).map (fun _ => f idx) ++ fillChunks size f fuel (idx + 1) (l.drop size)

theorem fillChunks_nil : ∀ fuel idx : ℕ, fillChunks size f fuel idx [] = []
  | 0, _ => rfl
  | fuel + 1, idx => by simp [fillChunks, fillChunks_nil fuel]

/-- Each place is filled with the value of its chunk. -/
theorem getElem?_fillChunks (hsize : 0 < size) :
    ∀ (fuel idx : ℕ) (l : List α), l.length ≤ fuel * size → ∀ i,
      (fillChunks size f fuel idx l)[i]? = l[i]?.map fun _ => f (idx + i / size)
  | 0, idx, l, hfuel, i => by
    obtain rfl : l = [] := List.eq_nil_of_length_eq_zero (by omega)
    rfl
  | fuel + 1, idx, l, hfuel, i => by
    rw [Nat.succ_mul] at hfuel
    rw [fillChunks]
    rcases Nat.le_total l.length size with hlast | hmore
    · -- The last chunk, which may be shorter.
      rw [List.drop_eq_nil_of_le hlast, fillChunks_nil, List.append_nil, List.getElem?_map,
        List.take_of_length_le hlast]
      rcases Nat.lt_or_ge i l.length with hi | hi
      · rw [Nat.div_eq_of_lt (by omega), Nat.add_zero]
      · rw [List.getElem?_eq_none hi, Option.map_none, Option.map_none]
    · rw [List.getElem?_append, List.length_map, List.length_take, Nat.min_eq_left hmore]
      split
      · next hi =>
        rw [List.getElem?_map, List.getElem?_take_of_lt hi, Nat.div_eq_of_lt hi, Nat.add_zero]
      · next hi =>
        have hdiv : idx + 1 + (i - size) / size = idx + i / size := by
          rw [Nat.div_eq_sub_div hsize (by omega : size ≤ i)]
          omega
        rw [getElem?_fillChunks hsize fuel (idx + 1) (l.drop size) (by simp; omega), hdiv,
          List.getElem?_drop, Nat.add_sub_cancel' (by omega)]

end Chunks

/-- The table of `n` nodes : chunks of `numSlots / n` slots, and the last node for what
remains behind them. -/
def buildTable (n : ℕ) : List ℕ :=
  let base := numSlots / n
  let table := fillChunks base (min · (n - 1)) numSlots 0 (List.replicate numSlots 0)
  table.take (base * n) ++ (table.drop (base * n)).map fun _ => n - 1

section Table

variable {n : ℕ}

/-- The slots in their chunks, before the last node takes what remains. -/
theorem getElem?_chunks (hn : 0 < n) (hle : n ≤ numSlots) (slot : ℕ) :
    (fillChunks (numSlots / n) (min · (n - 1)) numSlots 0 (List.replicate numSlots 0))[slot]? =
      (List.replicate numSlots 0)[slot]?.map fun _ => min (0 + slot / (numSlots / n)) (n - 1) := by
  have hbase : 0 < numSlots / n := Nat.div_pos hle hn
  exact getElem?_fillChunks hbase numSlots 0 (List.replicate numSlots 0)
    (by simpa using Nat.le_mul_of_pos_right numSlots hbase) slot

/-- The chunks fill the whole table. -/
theorem length_chunks (hn : 0 < n) (hle : n ≤ numSlots) :
    (fillChunks (numSlots / n) (min · (n - 1)) numSlots 0
      (List.replicate numSlots 0)).length = numSlots := by
  refine Nat.le_antisymm (List.getElem?_eq_none_iff.mp ?_) (Nat.le_of_not_lt fun hlt => ?_)
  · rw [getElem?_chunks hn hle, List.getElem?_eq_none (by simp), Option.map_none]
  · have hnone := getElem?_chunks hn hle _ ▸ List.getElem?_eq_none (Nat.le_refl _)
    simp [hlt] at hnone

/-- The table has an entry for every slot. -/
theorem length_buildTable (hn : 0 < n) (hle : n ≤ numSlots) :
    (buildTable n).length = numSlots := by
  have hall : numSlots / n * n ≤ numSlots := Nat.div_mul_le_self _ _
  simp only [buildTable, List.length_append, List.length_take, List.length_map, List.length_drop,
    length_chunks hn hle]
  omega

/-- The table holds the owner of every slot. -/
theorem getElem?_buildTable (hn : 0 < n) (hle : n ≤ numSlots) {slot : ℕ}
    (hslot : slot < numSlots) : (buildTable n)[slot]? = some (slotTable n slot) := by
  have hall : numSlots / n * n ≤ numSlots := Nat.div_mul_le_self _ _
  have hfill := getElem?_chunks hn hle
  simp only [buildTable, slotTable]
  rw [List.getElem?_append, List.length_take, length_chunks hn hle, Nat.min_eq_left hall]
  split
  · next hlt =>
    rw [List.getElem?_take_of_lt hlt, hfill]
    simp [hslot]
  · next hge =>
    rw [List.getElem?_map, List.getElem?_drop, hfill]
    have : numSlots / n * n + (slot - numSlots / n * n) = slot := by omega
    simp [this, hslot]

/-- The table is a function of the number of nodes. -/
theorem buildTable_eq (hn : 0 < n) (hle : n ≤ numSlots) :
    buildTable n = (List.range numSlots).map (slotTable n) := by
  refine List.ext_getElem? fun slot => ?_
  by_cases hslot : slot < numSlots
  · rw [getElem?_buildTable hn hle hslot, List.getElem?_map, List.getElem?_range hslot]
    rfl
  · rw [List.getElem?_eq_none (by rw [length_buildTable hn hle]; omega),
      List.getElem?_eq_none (by rw [List.length_map, List.length_range]; omega)]

end Table

/-! ## Node lists -/

section SortNodes

variable {nodes nodes' : List String} {a : String}

/-- `sort` and `dedup` leave every address once. -/
theorem sortNodes_eq_dedup (nodes : List String) :
    sortNodes nodes = (nodes.insertionSort (· ≤ ·)).dedup :=
  (List.pairwise_insertionSort (· ≤ ·) nodes).destutter_eq_dedup

/-- Sorting the nodes keeps the addresses. -/
theorem mem_sortNodes : a ∈ sortNodes nodes ↔ a ∈ nodes := by
  rw [sortNodes_eq_dedup, List.mem_dedup, List.mem_insertionSort]

/-- The nodes come out in strict order. -/
theorem sorted_sortNodes (nodes : List String) : (sortNodes nodes).Pairwise (· < ·) := by
  rw [sortNodes_eq_dedup]
  exact ((List.pairwise_insertionSort (· ≤ ·) nodes).sublist (List.dedup_sublist _)).imp₂
    (fun _ _ hle hne => hle.lt_of_ne hne) (List.nodup_dedup _)

/-- The nodes come out once each. -/
theorem nodup_sortNodes (nodes : List String) : (sortNodes nodes).Nodup :=
  (sorted_sortNodes nodes).imp fun hlt => hlt.ne

/-- As many nodes come out as there are addresses. -/
theorem length_sortNodes (nodes : List String) : (sortNodes nodes).length = nodes.dedup.length := by
  refine List.Perm.length_eq ((List.perm_ext_iff_of_nodup (nodup_sortNodes nodes)
    (List.nodup_dedup nodes)).mpr fun a => ?_)
  rw [mem_sortNodes, List.mem_dedup]

/-- The sorted list depends on the set of the addresses alone. -/
theorem sortNodes_congr (h : ∀ a, a ∈ nodes ↔ a ∈ nodes') : sortNodes nodes = sortNodes nodes' := by
  have hperm : (sortNodes nodes).Perm (sortNodes nodes') := by
    refine (List.perm_ext_iff_of_nodup (nodup_sortNodes _) (nodup_sortNodes _)).mpr fun a => ?_
    rw [mem_sortNodes, mem_sortNodes, h]
  exact hperm.eq_of_pairwise (fun a b _ _ hab hba => absurd hba hab.asymm)
    (sorted_sortNodes _) (sorted_sortNodes _)

end SortNodes

/-! ## The configuration with its table -/

/-- A configuration as the program keeps it. -/
structure TableConfig where
  nodes : List String
  myIndex : ℕ
  slotToNode : List ℕ

namespace TableConfig

/-- The configuration of the node `myAddr`, with its table. -/
def new (nodes : List String) (myAddr : String) : Except String TableConfig :=
  let nodes := sortNodes nodes
  let n := nodes.length
  if n = 0 then .error "cluster must have at least one node"
  else match nodes.findIdx? (· = myAddr) with
    | none => .error s!"--cluster-self {myAddr} not found in --cluster-nodes"
    | some myIndex =>
      -- Cutting into chunks of no slots is a panic.
      if numSlots / n = 0 then .error "chunk size must be non-zero"
      else .ok ⟨nodes, myIndex, buildTable n⟩

/-- A configuration that is only asked for owners, with its table. -/
def forRouting (nodes : List String) : Except String TableConfig :=
  let nodes := sortNodes nodes
  let n := max nodes.length 1
  if numSlots / n = 0 then .error "chunk size must be non-zero"
  else .ok ⟨nodes, 0, buildTable n⟩

/-- An index outside of the table is a panic. -/
def isMine (cfg : TableConfig) (slot : ℕ) : Option Bool :=
  cfg.slotToNode[slot]?.map fun i => i = cfg.myIndex

/-- The address of the owner of a slot, indexed in the table. -/
def nodeForSlot (cfg : TableConfig) (slot : ℕ) : Option String :=
  cfg.slotToNode[slot]?.bind fun i => cfg.nodes[i]?

end TableConfig

/-- The configuration `cfg` with its table. -/
def ClusterConfig.withTable (cfg : ClusterConfig) : TableConfig :=
  ⟨cfg.nodes, cfg.myIndex, buildTable cfg.nodes.length⟩

namespace TableConfig

variable {nodes : List String} {a : String}

/-- `ClusterConfig::new` fills the table of its nodes. -/
theorem new_eq (nodes : List String) (a : String) :
    new nodes a = (ClusterConfig.new nodes a).map ClusterConfig.withTable := by
  have hlarge : ∀ n : ℕ, 0 < n → (numSlots / n = 0 ↔ numSlots < n) := by
    intro n hn
    rw [Nat.div_eq_zero_iff]
    omega
  simp only [new, ClusterConfig.new, List.length_eq_zero_iff]
  split
  · rfl
  · next hne =>
    cases (sortNodes nodes).findIdx? fun x => decide (x = a) with
    | none => rfl
    | some i =>
      simp only [hlarge _ (List.length_pos_iff.mpr hne)]
      split <;> rfl

/-- `for_routing` fills the table of its nodes. -/
theorem forRouting_eq (hne : nodes ≠ []) (hle : (sortNodes nodes).length ≤ numSlots) :
    forRouting nodes = .ok (ClusterConfig.forRouting nodes).withTable := by
  obtain ⟨a, ha⟩ := List.exists_mem_of_ne_nil nodes hne
  have hpos : 0 < (sortNodes nodes).length := List.length_pos_of_mem (mem_sortNodes.mpr ha)
  have hmax : max (sortNodes nodes).length 1 = (sortNodes nodes).length := by omega
  simp only [forRouting, hmax]
  rw [if_neg (Nat.div_pos hle hpos).ne']
  rfl

section Lookup

variable {cfg : ClusterConfig} {slot : ℕ}

/-- The table answers `is_mine` as the computed owner does. -/
theorem isMine_withTable (hne : cfg.nodes ≠ []) (hle : cfg.nodes.length ≤ numSlots)
    (hslot : slot < numSlots) : cfg.withTable.isMine slot = some (cfg.isMine slot) := by
  change (buildTable cfg.nodes.length)[slot]?.map _ = _
  rw [getElem?_buildTable (List.length_pos_iff.mpr hne) hle hslot]
  rfl

/-- The table answers `node_for_slot` as the computed owner does. -/
theorem nodeForSlot_withTable (hne : cfg.nodes ≠ []) (hle : cfg.nodes.length ≤ numSlots)
    (hslot : slot < numSlots) : cfg.withTable.nodeForSlot slot = some (cfg.nodeForSlot slot) := by
  have hlt : slotTable cfg.nodes.length slot < cfg.nodes.length :=
    slotTable_lt (List.length_pos_iff.mpr hne)
  change ((buildTable cfg.nodes.length)[slot]?.bind fun i => cfg.nodes[i]?) = _
  rw [getElem?_buildTable (List.length_pos_iff.mpr hne) hle hslot, Option.bind_some,
    ClusterConfig.nodeForSlot, ClusterConfig.slotToNode, List.getD_eq_getElem?_getD,
    List.getElem?_eq_getElem hlt, Option.getD_some]

end Lookup

end TableConfig

/-! ## The slots of a node -/

/-- In a sorted list, a place is the number of smaller elements. -/
theorem idxOf_eq_countP {α : Type} [LinearOrder α] : ∀ {l : List α} {a : α},
    l.Pairwise (· < ·) → a ∈ l → l.idxOf a = l.countP (· < a)
  | b :: l, a, hl, ha => by
    rw [List.pairwise_cons] at hl
    rcases List.mem_cons.mp ha with rfl | hmem
    · have hzero : l.countP (· < a) = 0 := by
        rw [List.countP_eq_zero]
        intro c hc
        simpa using (hl.1 c hc).le
      simp [hzero]
    · have hlt : b < a := hl.1 a hmem
      rw [List.idxOf_cons_ne _ hlt.ne, idxOf_eq_countP hl.2 hmem, List.countP_cons_of_pos (by simpa)]

/-- The number of addresses of a list before `a`. -/
def rankOf (nodes : List String) (a : String) : ℕ := nodes.dedup.countP (· < a)

/-- The place of a node is the number of smaller addresses. -/
theorem idxOf_sortNodes {nodes : List String} {a : String} (ha : a ∈ nodes) :
    (sortNodes nodes).idxOf a = rankOf nodes a := by
  rw [idxOf_eq_countP (sorted_sortNodes nodes) (mem_sortNodes.mpr ha), rankOf]
  refine List.Perm.countP_eq _ ((List.perm_ext_iff_of_nodup (nodup_sortNodes nodes)
    (List.nodup_dedup nodes)).mpr fun b => ?_)
  rw [mem_sortNodes, List.mem_dedup]

/-- The slots of the node `i` are consecutive, from `i` times the length of a range on. -/
theorem slotTable_eq_iff {n i slot : ℕ} (hn : i < n) (hle : n ≤ numSlots) :
    slotTable n slot = i ↔ i * (numSlots / n) ≤ slot ∧
      (i + 1 < n → slot < (i + 1) * (numSlots / n)) := by
  have hbase : 0 < numSlots / n := Nat.div_pos hle (by omega)
  simp only [slotTable]
  generalize numSlots / n = base at hbase ⊢
  have hend : (i + 1) * base ≤ base * n := by
    rw [Nat.mul_comm base]
    exact Nat.mul_le_mul_right base hn
  rw [Nat.succ_mul] at hend ⊢
  have hfrom : i ≤ slot / base ↔ i * base ≤ slot := Nat.le_div_iff_mul_le hbase
  have hto : slot / base < i + 1 ↔ slot < i * base + base := by
    rw [Nat.div_lt_iff_lt_mul hbase, Nat.succ_mul]
  split <;> omega

/-! ## The nodes of a cluster -/

section Agreement

variable {nodes given : List String} {a : String}

/-- Each node of the list has a configuration, with the same table whatever the order of
the list. -/
theorem TableConfig.new_given (hle : nodes.dedup.length ≤ numSlots)
    (hgiven : ∀ x, x ∈ given ↔ x ∈ nodes) (ha : a ∈ nodes) :
    new given a = .ok (cfgFor (sortNodes nodes) a).withTable := by
  have hmem : a ∈ sortNodes nodes := mem_sortNodes.mpr ha
  have hcfg : ClusterConfig.new (sortNodes nodes) a = .ok (cfgFor (sortNodes nodes) a) :=
    (new_eq_ok_iff (sorted_sortNodes nodes)).mpr ⟨hmem, (length_sortNodes nodes).trans_le hle, rfl⟩
  have hsame : ClusterConfig.new given a = ClusterConfig.new (sortNodes nodes) a := by
    simp only [ClusterConfig.new, sortNodes_congr hgiven, sortNodes_of_sorted (sorted_sortNodes nodes)]
  rw [new_eq, hsame, hcfg]
  rfl

/-- A node owns the slots of its range. -/
theorem TableConfig.isMine_given (hle : nodes.dedup.length ≤ numSlots) (ha : a ∈ nodes) {slot : ℕ}
    (hslot : slot < numSlots) : (cfgFor (sortNodes nodes) a).withTable.isMine slot =
      some (decide (slotTable nodes.dedup.length slot = rankOf nodes a)) := by
  have hne : sortNodes nodes ≠ [] := List.ne_nil_of_mem (mem_sortNodes.mpr ha)
  rw [isMine_withTable hne ((length_sortNodes nodes).trans_le hle) hslot, ← idxOf_sortNodes ha,
    ← length_sortNodes]
  rfl

/-- The owner of a slot is a node of the list, the one with its index. -/
theorem getD_slotTable (hpos : 1 ≤ nodes.dedup.length) (slot : ℕ) :
    (sortNodes nodes).getD (slotTable nodes.dedup.length slot) "" ∈ nodes ∧
      rankOf nodes ((sortNodes nodes).getD (slotTable nodes.dedup.length slot) "") =
        slotTable nodes.dedup.length slot := by
  have hlt : slotTable nodes.dedup.length slot < (sortNodes nodes).length := by
    rw [length_sortNodes]
    exact slotTable_lt hpos
  rw [List.getD_eq_getElem?_getD, List.getElem?_eq_getElem hlt, Option.getD_some]
  have hmem : (sortNodes nodes)[slotTable nodes.dedup.length slot] ∈ nodes :=
    mem_sortNodes.mp (List.getElem_mem hlt)
  exact ⟨hmem, by rw [← idxOf_sortNodes hmem, (nodup_sortNodes nodes).idxOf_getElem]⟩

/-- Two nodes of the list with the same index are the same. -/
theorem rankOf_inj {b : String} (ha : a ∈ nodes) (hb : b ∈ nodes)
    (h : rankOf nodes a = rankOf nodes b) : a = b := by
  rw [← idxOf_sortNodes ha, ← idxOf_sortNodes hb] at h
  exact (List.idxOf_inj (mem_sortNodes.mpr ha)).mp h

end Agreement

/-- The nodes of a cluster each read the same addresses, in any order and any number of
times. Each gets a configuration, they agree with each other and with the routing table on
the owner of every slot, each slot has one owner, and the slots of a node are the range
that its place in the sorted order gives. -/
theorem slot_tables_partition (nodes : List String) (hpos : 1 ≤ nodes.dedup.length)
    (hle : nodes.dedup.length ≤ 16384) (given : String → List String) (routed : List String)
    (hgiven : ∀ a ∈ nodes, ∀ x, x ∈ given a ↔ x ∈ nodes) (hrouted : ∀ x, x ∈ routed ↔ x ∈ nodes) :
    ∃ (cfg : String → TableConfig) (routing : TableConfig) (owner : ℕ → String),
      (∀ a ∈ nodes, TableConfig.new (given a) a = .ok (cfg a)) ∧
      TableConfig.forRouting routed = .ok routing ∧
      (∀ slot < 16384, owner slot ∈ nodes ∧ routing.nodeForSlot slot = some (owner slot) ∧
        (∀ a ∈ nodes, (cfg a).nodeForSlot slot = some (owner slot)) ∧
        ∀ a ∈ nodes, (cfg a).isMine slot = some (decide (a = owner slot))) ∧
      ∀ a ∈ nodes, ∀ slot < 16384, (cfg a).isMine slot =
        some (decide (rankOf nodes a * (16384 / nodes.dedup.length) ≤ slot ∧
          (rankOf nodes a + 1 < nodes.dedup.length →
            slot < (rankOf nodes a + 1) * (16384 / nodes.dedup.length)))) := by
  have hne : sortNodes nodes ≠ [] := by
    intro hnil
    simp [← length_sortNodes, hnil] at hpos
  have hlen : (sortNodes nodes).length ≤ numSlots := (length_sortNodes nodes).trans_le hle
  have hsorted : sortNodes routed = sortNodes nodes := sortNodes_congr hrouted
  have hrouting : TableConfig.forRouting routed = .ok (ClusterConfig.forRouting nodes).withTable := by
    have hne' : routed ≠ [] := by
      rintro rfl
      exact hne hsorted.symm
    rw [TableConfig.forRouting_eq hne' (hsorted ▸ hlen), ClusterConfig.forRouting, hsorted]
    rfl
  have howner : ∀ {cfg : ClusterConfig} {slot : ℕ}, cfg.nodes = sortNodes nodes → slot < 16384 →
      cfg.withTable.nodeForSlot slot =
        some ((sortNodes nodes).getD (slotTable nodes.dedup.length slot) "") := by
    intro cfg slot hcfg hslot
    rw [TableConfig.nodeForSlot_withTable (hcfg ▸ hne) (hcfg ▸ hlen) hslot,
      ClusterConfig.nodeForSlot, ClusterConfig.slotToNode, hcfg, length_sortNodes]
  refine ⟨fun a => (cfgFor (sortNodes nodes) a).withTable, (ClusterConfig.forRouting nodes).withTable,
    fun slot => (sortNodes nodes).getD (slotTable nodes.dedup.length slot) "", ?_, hrouting, ?_, ?_⟩
  · intro a ha
    exact TableConfig.new_given hle (hgiven a ha) ha
  · intro slot hslot
    obtain ⟨hmem, hrank⟩ := getD_slotTable hpos slot
    refine ⟨hmem, howner rfl hslot, fun a _ => howner rfl hslot, fun a ha => ?_⟩
    rw [TableConfig.isMine_given hle ha hslot, Option.some.injEq, decide_eq_decide]
    constructor
    · intro h
      exact rankOf_inj ha hmem (h.symm.trans hrank.symm)
    · intro h
      rw [h, hrank]
  · intro a ha slot hslot
    have hlt : rankOf nodes a < nodes.dedup.length := by
      rw [← idxOf_sortNodes ha, ← length_sortNodes]
      exact List.idxOf_lt_length_of_mem (mem_sortNodes.mpr ha)
    rw [TableConfig.isMine_given hle ha hslot, Option.some.injEq, decide_eq_decide]
    exact slotTable_eq_iff hlt hle

/-- Two nodes, one of which lists an address twice. -/
theorem two_nodes_partition : ∃ cfg cfg' routing : TableConfig,
    TableConfig.new ["b:1", "a:1", "b:1"] "a:1" = .ok cfg ∧
      TableConfig.new ["a:1", "b:1"] "b:1" = .ok cfg' ∧
      TableConfig.forRouting ["a:1", "b:1"] = .ok routing ∧
      ∀ slot < 16384, cfg.nodeForSlot slot = routing.nodeForSlot slot ∧
        cfg'.nodeForSlot slot = routing.nodeForSlot slot := by
  have hsame : ∀ x : String, x ∈ ["b:1", "a:1", "b:1"] ↔ x ∈ ["a:1", "b:1"] := by
    intro x
    simp only [List.mem_cons, List.not_mem_nil, or_false]
    tauto
  obtain ⟨cfg, routing, owner, hnew, hrouting, howner, -⟩ :=
    slot_tables_partition ["a:1", "b:1"] (by decide) (by decide)
      (fun a => if a = "a:1" then ["b:1", "a:1", "b:1"] else ["a:1", "b:1"]) ["a:1", "b:1"]
      (by intro a _ x; split; exacts [hsame x, Iff.rfl]) fun _ => Iff.rfl
  refine ⟨cfg "a:1", cfg "b:1", routing, hnew "a:1" (by simp), hnew "b:1" (by simp), hrouting, ?_⟩
  intro slot hslot
  obtain ⟨-, hr, hall, -⟩ := howner slot hslot
  exact ⟨(hall "a:1" (by simp)).trans hr.symm, (hall "b:1" (by simp)).trans hr.symm⟩

end LoonyRedis
