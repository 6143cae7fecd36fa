import LoonyRedis.CheckedTables
import LoonyRedis.Lib.Ranges
import LoonyRedis.Membership

/-!
# The reported slot ranges

`slot_ranges_for` goes over the slot table with the start of an open range in its hand. It
ends the range at the slot before the first one of another owner, a subtraction that would
panic at slot 0, or after the loop at the last slot of the table. For any table it returns
the maximal ranges of the slots of the node (`TableConfig.exact_slotRangesFor`).

`CLUSTER SLOTS`, `SHARDS` and `NODES` report the ranges of all nodes. `slot_ranges_exact`
reads them back from the replies : each slot is in one range of each report, and that is a range of
the node that owns the slot.
-/

namespace LoonyRedis

open Ranges

/-! ## The loop -/

namespace ClusterConfig

variable {owner : ℕ → ℕ} {i : ℕ}

/-- From slot `k` on, with `m` slots to go : the open range, if there is one, and the slots of
the node that are left. -/
theorem exact_slotRanges : ∀ (m k : ℕ) (start : Option ℕ), k + m = numSlots →
    (∀ s ∈ start, s < k) →
    Exact (fun x => ((∃ s ∈ start, s ≤ x) ∧ x < k) ∨ (k ≤ x ∧ x < numSlots ∧ owner x = i))
      (slotRanges owner i (numSlots - 1) start (List.range' k m))
  | 0, k, none, hk, _ => by
    refine Exact.nil fun x => ?_
    rintro (⟨⟨s, hs, -⟩, -⟩ | ⟨hx, hlt, -⟩)
    · cases hs
    · omega
  | 0, k, some s, hk, hs => by
    have hlt : s < k := hs s rfl
    refine (Exact.cons (a := s) (b := numSlots - 1) (P := fun _ => False) (by omega)
      (.nil fun _ => id) fun _ h => h.elim).congr fun x => ?_
    simp only [Option.mem_def, Option.some.injEq, exists_eq_left', or_false]
    omega
  | m + 1, k, none, hk, _ => by
    rw [List.range'_succ, slotRanges]
    split
    · next howner =>
      refine (exact_slotRanges m (k + 1) (some k) (by omega) fun s hs => ?_).congr fun x => ?_
      · obtain rfl : k = s := Option.some.inj hs
        exact Nat.lt_succ_self k
      · simp only [Option.mem_def, Option.some.injEq, exists_eq_left', reduceCtorEq, false_and,
          exists_false, false_or]
        grind
    · next howner =>
      refine (exact_slotRanges m (k + 1) none (by omega) (by simp)).congr fun x => ?_
      simp only [Option.mem_def, reduceCtorEq, false_and, exists_false, false_or]
      grind
  | m + 1, k, some s, hk, hs => by
    have hlt : s < k := hs s rfl
    rw [List.range'_succ, slotRanges]
    split
    · next howner =>
      refine (exact_slotRanges m (k + 1) (some s) (by omega) fun t ht => ?_).congr fun x => ?_
      · obtain rfl : s = t := Option.some.inj ht
        exact Nat.lt_succ_of_lt hlt
      · simp only [Option.mem_def, Option.some.injEq, exists_eq_left']
        grind
    · next howner =>
      -- The range ends before this slot, and the next one begins behind it.
      have hrest := exact_slotRanges m (k + 1) none (by omega) (by simp)
      refine (hrest.cons (a := s) (b := k - 1) (by omega) fun x hx => ?_).congr fun x => ?_
      · simp only [Option.mem_def, reduceCtorEq, false_and, exists_false, false_or] at hx
        omega
      · simp only [Option.mem_def, Option.some.injEq, exists_eq_left', reduceCtorEq, false_and,
          exists_false, false_or]
        grind

end ClusterConfig

/-- For any table the loop returns, and gives the maximal ranges of the slots of the node. -/
theorem TableConfig.exact_slotRangesFor {cfg : TableConfig}
    (hlen : cfg.slotToNode.length = numSlots) (i : ℕ) :
    ∃ rs, cfg.slotRangesFor i = some rs ∧
      Exact (fun slot => cfg.slotToNode[slot]? = some i) rs := by
  have htable : cfg.slotToNode.zipIdx =
      (List.range numSlots).map fun slot => (cfg.slotToNode.getD slot 0, slot) := by
    refine List.ext_getElem (by simp [hlen]) fun slot hslot _ => ?_
    rw [List.length_zipIdx] at hslot
    simp [hslot]
  have hall := @ClusterConfig.exact_slotRanges (fun slot => cfg.slotToNode.getD slot 0) i
    numSlots 0 none (Nat.zero_add _) (by simp)
  rw [← List.range_eq_range'] at hall
  refine ⟨_, ?_, hall.congr fun slot => ?_⟩
  · rw [slotRangesFor, htable]
    exact rangesLoop_eq .range
  · simp only [Option.mem_def, reduceCtorEq, false_and, exists_false, false_or, Nat.zero_le,
      true_and]
    by_cases hslot : slot < numSlots
    · simp [hslot, hlen]
    · have hnone : cfg.slotToNode[slot]? = none := List.getElem?_eq_none (by omega)
      simp [hslot, hnone]

/-! ## The reports -/

/-- The elements of an array. -/
def Frame.items : Frame → List Frame
  | .array (some fs) => fs
  | _ => []

/-- The range of an entry of `CLUSTER SLOTS`, and what the entry says of the node. -/
def slotsEntry (f : Frame) : Option ((ℤ × ℤ) × List Frame) :=
  match f.items with
  | .integer a :: .integer b :: node :: _ => some ((a, b), node.items)
  | _ => none

/-- Numbers in pairs. -/
def pairUp : List Frame → List (ℤ × ℤ)
  | .integer a :: .integer b :: fs => (a, b) :: pairUp fs
  | _ => []

/-- The ranges of an entry of `CLUSTER SHARDS`, each with what the entry says of the node. -/
def shardsEntry (f : Frame) : List ((ℤ × ℤ) × List Frame) :=
  match f.items with
  | _ :: ranges :: _ :: nodes :: _ =>
    (pairUp ranges.items).map fun r => (r, nodes.items.flatMap Frame.items)
  | _ => []

/-- A line of `CLUSTER NODES` : what it says of the node, and the ranges. -/
def nodesLine (head : String) (rs : List (ℕ × ℕ)) : String :=
  head ++ " connected " ++ " ".intercalate (rs.map fun r => s!"{r.1}-{r.2}")

/-- The range of an entry has a slot. -/
def EntryHas {β : Type} (slot : ℕ) (e : (ℤ × ℤ) × β) : Prop := e.1.1 ≤ slot ∧ slot ≤ e.1.2

/-- The ends are compared. -/
instance {β : Type} (slot : ℕ) (e : (ℤ × ℤ) × β) : Decidable (EntryHas slot e) :=
  inferInstanceAs (Decidable (_ ∧ _))

/-- What `CLUSTER SLOTS` says of a node. -/
def slotsNode (addr : String) : List Frame :=
  [.bulkStr (splitAddr addr).1, .integer (splitAddr addr).2, .bulkStr (nodeId addr)]

/-- What `CLUSTER SHARDS` says of a node. -/
def shardsNode (addr : String) : List Frame :=
  [.bulkStr "id", .bulkStr (nodeId addr), .bulkStr "endpoint", .bulkStr (splitAddr addr).1,
    .bulkStr "ip", .bulkStr (splitAddr addr).1, .bulkStr "port", .integer (splitAddr addr).2,
    .bulkStr "role", .bulkStr "master"]

/-- Only one of the elements counts. -/
theorem flatMap_eq_of_unique {α β : Type} {f : α → List β} {k : α} : ∀ {l : List α}, l.Nodup →
    k ∈ l → (∀ j ∈ l, j ≠ k → f j = []) → l.flatMap f = f k
  | j :: l, hnodup, hk, hf => by
    obtain ⟨hj, hl⟩ := List.nodup_cons.mp hnodup
    rw [List.forall_mem_cons] at hf
    rw [List.flatMap_cons]
    rcases List.mem_cons.mp hk with rfl | hmem
    · have hrest : l.flatMap f = [] :=
        List.flatMap_eq_nil_iff.mpr fun j hmem => hf.2 j hmem fun h => hj (h ▸ hmem)
      rw [hrest, List.append_nil]
    · rw [hf.1 fun h => hj (h ▸ hmem), flatMap_eq_of_unique hl hmem hf.2, List.nil_append]

namespace ClusterConfig

variable {cfg : ClusterConfig}

/-- What `CLUSTER NODES` says of a node. -/
def nodesHead (cfg : ClusterConfig) (addr : String) (i : ℕ) : String :=
  let flags := if i = cfg.myIndex then "myself,master" else "master"
  s!"{nodeId addr} {addr}@0 {flags} - 0 0 {i}"

theorem exact_slotRangesFor (i : ℕ) :
    Exact (fun slot => slot < numSlots ∧ cfg.slotToNode slot = i) (cfg.slotRangesFor i) := by
  have hall := @exact_slotRanges cfg.slotToNode i numSlots 0 none (Nat.zero_add _) (by simp)
  rw [← List.range_eq_range'] at hall
  rw [slotRangesFor]
  refine hall.congr fun x => ?_
  simp only [Option.mem_def, reduceCtorEq, false_and, exists_false, false_or, Nat.zero_le, true_and]

/-- The ranges of a node, with what is said of it, as the entries of a report. -/
def entries {β : Type} (cfg : ClusterConfig) (label : String → ℕ → β) (p : String × ℕ) :
    List ((ℤ × ℤ) × β) :=
  (cfg.slotRangesFor p.2).map fun r => (((r.1 : ℤ), (r.2 : ℤ)), label p.1 p.2)

/-- One range of its owner has the slot, and no range of another node. -/
theorem filter_slotRangesFor {slot : ℕ} (hslot : slot < numSlots) :
    ∃ r, ∀ i, (cfg.slotRangesFor i).filter (Has · slot) =
      if cfg.slotToNode slot = i then [r] else [] := by
  have hexact (i : ℕ) : ((cfg.slotRangesFor i).filter (Has · slot)).length =
      if cfg.slotToNode slot = i then 1 else 0 := by
    rw [← List.countP_eq_length_filter, (exact_slotRangesFor i).countP slot]
    exact if_congr (and_iff_right hslot) rfl rfl
  have hown := hexact (cfg.slotToNode slot)
  rw [if_pos rfl] at hown
  obtain ⟨r, hr⟩ := List.length_eq_one_iff.mp hown
  refine ⟨r, fun i => ?_⟩
  split
  · next hi => rw [← hi, hr]
  · next hi =>
    have hnone := hexact i
    rw [if_neg hi] at hnone
    exact List.eq_nil_of_length_eq_zero hnone

/-- One entry of a report has the slot, and it is one of the owner. -/
theorem filter_entries (hne : cfg.nodes ≠ []) {slot : ℕ} (hslot : slot < numSlots) :
    ∃ (addr : String) (a b : ℤ), cfg.nodes[cfg.slotToNode slot]? = some addr ∧
      ∀ {β : Type} (label : String → ℕ → β),
        (cfg.nodes.zipIdx.flatMap (cfg.entries label)).filter (EntryHas slot ·) =
          [((a, b), label addr (cfg.slotToNode slot))] := by
  have hlt : cfg.slotToNode slot < cfg.nodes.length := by
    rw [slotToNode]
    exact slotTable_lt (List.length_pos_iff.mpr hne)
  obtain ⟨r, hr⟩ := @filter_slotRangesFor cfg slot hslot
  refine ⟨cfg.nodes[cfg.slotToNode slot], r.1, r.2, List.getElem?_eq_getElem hlt, fun label => ?_⟩
  have hentries (p : String × ℕ) : (cfg.entries label p).filter (EntryHas slot ·) =
      (if cfg.slotToNode slot = p.2 then [r] else []).map
        fun r => (((r.1 : ℤ), (r.2 : ℤ)), label p.1 p.2) := by
    rw [entries, List.filter_map, ← hr]
    refine congrArg _ (List.filter_congr fun r _ => ?_)
    rw [Function.comp_apply, decide_eq_decide, EntryHas, Has, Nat.cast_le, Nat.cast_le]
  have hnodup : cfg.nodes.zipIdx.Nodup := by
    refine List.Nodup.of_map Prod.snd ?_
    rw [List.zipIdx_map_snd]
    exact List.nodup_range'
  have hmem : (cfg.nodes[cfg.slotToNode slot], cfg.slotToNode slot) ∈ cfg.nodes.zipIdx :=
    List.mem_zipIdx_iff_getElem?.mpr (List.getElem?_eq_getElem hlt)
  rw [List.filter_flatMap, flatMap_eq_of_unique hnodup hmem ?_, hentries, if_pos rfl]
  · rfl
  · intro p hp hne
    rw [hentries, if_neg, List.map_nil]
    intro howner
    refine hne (Prod.ext ?_ howner.symm)
    have hget := List.mem_zipIdx_iff_getElem?.mp hp
    rw [← howner, List.getElem?_eq_getElem hlt] at hget
    exact (Option.some.inj hget).symm

/-! ### The entries of the replies -/

theorem pairUp_flatMap : ∀ rs : List (ℕ × ℕ),
    pairUp (rs.flatMap fun r => [.integer r.1, .integer r.2]) =
      rs.map fun r => ((r.1 : ℤ), (r.2 : ℤ))
  | [] => rfl
  | r :: rs => by
    rw [List.flatMap_cons, List.map_cons, ← pairUp_flatMap rs]
    rfl

theorem slotsEntries_eq : cfg.clusterSlotsFrame.items.filterMap slotsEntry =
    cfg.nodes.zipIdx.flatMap (cfg.entries fun addr _ => slotsNode addr) := by
  rw [clusterSlotsFrame, Frame.items, List.filterMap_flatMap]
  refine List.flatMap_congr fun p _ => ?_
  rw [entries, List.filterMap_map, ← List.filterMap_eq_map]
  rfl

theorem shardsEntries_eq : cfg.clusterShardsFrame.items.flatMap shardsEntry =
    cfg.nodes.zipIdx.flatMap (cfg.entries fun addr _ => shardsNode addr) := by
  rw [clusterShardsFrame, Frame.items, List.flatMap_map]
  refine List.flatMap_congr fun p _ => ?_
  have hranges := pairUp_flatMap (cfg.slotRangesFor p.2)
  simp only [shardsEntry, Frame.items, hranges, entries, List.map_map]
  rfl

/-- The lines of `CLUSTER NODES` : what they say of the nodes, and the ranges. -/
def nodesLines (cfg : ClusterConfig) : List (String × List (ℕ × ℕ)) :=
  cfg.nodes.zipIdx.map fun p => (cfg.nodesHead p.1 p.2, cfg.slotRangesFor p.2)

theorem clusterNodesText_eq : cfg.clusterNodesText =
    "\n".intercalate (cfg.nodesLines.map fun l => nodesLine l.1 l.2) := by
  rw [clusterNodesText, nodesLines, List.map_map]
  refine congrArg _ (List.map_congr_left fun p _ => ?_)
  have hstr (s : String) : toString s = s := rfl
  simp only [nodesLine, nodesHead, Function.comp_apply, String.append_assoc, hstr]

theorem nodesEntries_eq :
    (cfg.nodesLines.flatMap fun l => l.2.map fun r => (((r.1 : ℤ), (r.2 : ℤ)), l.1)) =
      cfg.nodes.zipIdx.flatMap (cfg.entries cfg.nodesHead) := by
  rw [nodesLines, List.flatMap_map]
  refine List.flatMap_congr fun p _ => ?_
  rw [entries]

theorem getElem?_nodesLines (i : ℕ) : cfg.nodesLines[i]? =
    cfg.nodes[i]?.map fun addr => (cfg.nodesHead addr i, cfg.slotRangesFor i) := by
  rw [nodesLines, List.getElem?_map, List.getElem?_zipIdx, Nat.zero_add, Option.map_map]
  exact Option.map_congr fun _ _ => Function.comp_apply

theorem lineFeed_not_mem_toDigits (n : ℕ) : '\n' ∉ Nat.toDigits 10 n := by
  intro hmem
  have hdigit := Nat.isDigit_of_mem_toDigits (by decide) (by decide) hmem
  exact absurd hdigit (by decide)

/-- Only an address can bring a line feed into a line. -/
theorem lineFeed_not_mem_nodesHead {addr : String} (h : '\n' ∉ addr.toList) (i : ℕ) :
    '\n' ∉ (cfg.nodesHead addr i).toList := by
  have hid : '\n' ∉ (nodeId addr).toList := by
    simp [nodeId, lineFeed_not_mem_toDigits]
  have hstr (s : String) : toString s = s := rfl
  unfold nodesHead
  split <;> simp [hstr, h, hid, lineFeed_not_mem_toDigits]

end ClusterConfig

/-- For any table of the slots and any node, the ranges are found without an underflow. They
are not empty, in increasing order with a gap between a range and the next, and have the
slots of the node. A configuration that was built reports the ranges of its table. `CLUSTER NODES`
has a line for each node with its ranges, and each slot is in the range of one entry of each report,
an entry of its owner. -/
theorem slot_ranges_exact {table : TableConfig} (hlen : table.slotToNode.length = 16384) (i : ℕ)
    {cfg : ClusterConfig} (hcfg : cfg.Built) :
    (∃ rs, table.slotRangesFor i = some rs ∧ (∀ r ∈ rs, r.1 ≤ r.2) ∧
      (rs.Pairwise fun r r' => r.2 + 1 < r'.1) ∧
      ∀ slot, (∃ r ∈ rs, r.1 ≤ slot ∧ slot ≤ r.2) ↔ table.slotToNode[slot]? = some i) ∧
    (∀ j, cfg.withTable.slotRangesFor j = some (cfg.slotRangesFor j)) ∧
    ∃ lines : List (String × List (ℕ × ℕ)),
      cfg.clusterNodesText = "\n".intercalate (lines.map fun l => nodesLine l.1 l.2) ∧
      (∀ j, lines[j]? =
        cfg.nodes[j]?.map fun addr => (cfg.nodesHead addr j, cfg.slotRangesFor j)) ∧
      ((∀ addr ∈ cfg.nodes, '\n' ∉ addr.toList) → ∀ l ∈ lines, '\n' ∉ l.1.toList) ∧
      ∀ slot : ℕ, slot < 16384 → ∃ (addr : String) (a b : ℤ),
        cfg.nodes[cfg.slotToNode slot]? = some addr ∧
        (cfg.clusterSlotsFrame.items.filterMap slotsEntry).filter (EntryHas slot ·) =
          [((a, b), slotsNode addr)] ∧
        (cfg.clusterShardsFrame.items.flatMap shardsEntry).filter (EntryHas slot ·) =
          [((a, b), shardsNode addr)] ∧
        (lines.flatMap fun l => l.2.map fun r => (((r.1 : ℤ), (r.2 : ℤ)), l.1)).filter
          (EntryHas slot ·) = [((a, b), cfg.nodesHead addr (cfg.slotToNode slot))] := by
  refine ⟨?_, hcfg.slotRangesFor_eq, cfg.nodesLines, ClusterConfig.clusterNodesText_eq,
    ClusterConfig.getElem?_nodesLines, ?_, fun slot hslot => ?_⟩
  · obtain ⟨rs, hrs, hexact⟩ := TableConfig.exact_slotRangesFor hlen i
    exact ⟨rs, hrs, hexact.le, hexact.gap, hexact.has⟩
  · intro hno l hl
    obtain ⟨p, hp, rfl⟩ := List.mem_map.mp hl
    exact ClusterConfig.lineFeed_not_mem_nodesHead (hno p.1 (List.fst_mem_of_mem_zipIdx hp)) p.2
  · obtain ⟨addr, a, b, haddr, hreport⟩ := ClusterConfig.filter_entries hcfg.ne_nil hslot
    refine ⟨addr, a, b, haddr, ?_, ?_, ?_⟩
    · rw [ClusterConfig.slotsEntries_eq, hreport]
    · rw [ClusterConfig.shardsEntries_eq, hreport]
    · rw [ClusterConfig.nodesEntries_eq, hreport]

/-- A table with one owner, and a cluster of two nodes. -/
theorem slot_ranges_one_owner : ∃ rs,
    (TableConfig.mk ["a:1"] 0 (List.replicate 16384 0)).slotRangesFor 0 = some rs ∧
      ∀ slot, (∃ r ∈ rs, r.1 ≤ slot ∧ slot ≤ r.2) ↔ (List.replicate 16384 0)[slot]? = some 0 := by
  have hbuilt : (cfgFor (sortNodes ["b:1", "a:1"]) "a:1").Built := .of_mem (by decide) (by decide)
  have hlen : (TableConfig.mk ["a:1"] 0 (List.replicate 16384 0)).slotToNode.length = 16384 :=
    List.length_replicate
  obtain ⟨⟨rs, hrs, -, -, hhas⟩, -⟩ := slot_ranges_exact hlen 0 hbuilt
  exact ⟨rs, hrs, hhas⟩

end LoonyRedis
