import LoonyRedis.Lib.Checked
import LoonyRedis.Migration
import LoonyRedis.SlotTables

/-!
# Where the slot tables are indexed

A configuration has the index of its node and a table of the owners of the slots. The program
indexes the node list with what the table says, the table with the slots of keys, and computes
with slots of 16 bits. Here each of these operations is checked.

A configuration that `ClusterConfig.new` built (`ClusterConfig.Built`) has all that is looked
up, and the checked operations return what `ClusterConfig` says.
-/

namespace LoonyRedis

open Checked

/-! ## Keys -/

/-- The two slices of a key in `hash_tag`. -/
def hashTagChecked (key : Bytes) : Option Bytes :=
  match key.findIdx? (· = 0x7B) with
  | none => some key
  | some op => do
    let rest ← sliceFrom key (op + 1)
    match rest.findIdx? (· = 0x7D) with
    | none => return key
    | some close =>
      let tag ← sliceTo rest close
      return if tag = [] then key else tag

/-- `slotForKey`, with the slices of the hash tag checked. -/
def slotForKeyChecked (key : Bytes) : Option ℕ := do
  return (crc16 (← hashTagChecked key)).toNat % numSlots

/-- The slices of a hash tag are in range. -/
theorem hashTagChecked_eq (key : Bytes) : hashTagChecked key = some (hashTag key) := by
  unfold hashTagChecked hashTag
  cases hop : key.findIdx? (· = 0x7B) with
  | none => rfl
  | some op =>
    have hlt : op < key.length := (List.findIdx?_eq_some_iff_getElem.mp hop).1
    have hrest : sliceFrom key (op + 1) = some (key.drop (op + 1)) := sliceFrom_eq hlt
    simp only [hrest, Option.bind_eq_bind, Option.bind_some]
    cases hclose : (key.drop (op + 1)).findIdx? (· = 0x7D) with
    | none => rfl
    | some close =>
      have hle : close < (key.drop (op + 1)).length :=
        (List.findIdx?_eq_some_iff_getElem.mp hclose).1
      simp only [sliceTo_eq hle.le, Option.bind_some, List.take_eq_nil_iff]
      have hne : key.drop (op + 1) ≠ [] := List.ne_nil_of_length_pos (by omega)
      simp [hne]

@[simp] theorem slotForKeyChecked_eq (key : Bytes) :
    slotForKeyChecked key = some (slotForKey key) := by
  rw [slotForKeyChecked, hashTagChecked_eq]
  rfl

/-- The bulk strings at `start`, `start + stride`, and so on. -/
def strideKeys (args : List Frame) (start stride : ℕ) : List Bytes :=
  (List.range args.length).filterMap fun i =>
    if start ≤ i ∧ (i - start) % stride = 0 then bulkBytes args i else none

/-- `allSameSlot`, with each slot computed by checked slices. -/
def allSameSlotChecked (args : List Frame) (start stride : ℕ) : Option CommandSlot := do
  match ← (strideKeys args start stride).mapM slotForKeyChecked with
  | [] => return .none
  | s :: slots => return if slots.all (· = s) then .slot s else .crossSlot

/-- `commandSlot`, with each slot computed by checked slices. -/
def commandSlotChecked (cmd : String) (args : List Frame) : Option CommandSlot :=
  if cmd ∈ singleKeyCommands then
    match bulkBytes args 1 with
    | some k => (slotForKeyChecked k).map .slot
    | none => some .none
  else if cmd ∈ ["DEL", "UNLINK", "EXISTS", "MGET"] then allSameSlotChecked args 1 1
  else if cmd ∈ ["MSET", "MSETNX"] then allSameSlotChecked args 1 2
  else some .none

/-- The slots are those of the keys. -/
theorem strideSlots_eq_map (args : List Frame) (start stride : ℕ) :
    strideSlots args start stride = (strideKeys args start stride).map slotForKey := by
  rw [strideSlots, strideKeys, List.map_filterMap]
  refine List.filterMap_congr fun i _ => ?_
  split <;> rfl

/-- The slot of a key never fails to be computed. -/
theorem mapM_slotForKeyChecked (keys : List Bytes) :
    keys.mapM slotForKeyChecked = some (keys.map slotForKey) :=
  mapM_eq fun key _ => slotForKeyChecked_eq key

theorem allSameSlotChecked_eq (args : List Frame) (start stride : ℕ) :
    allSameSlotChecked args start stride = some (allSameSlot args start stride) := by
  rw [allSameSlotChecked, mapM_slotForKeyChecked, ← strideSlots_eq_map, allSameSlot]
  cases strideSlots args start stride <;> rfl

/-- The slot of a command never fails to be computed. -/
theorem commandSlotChecked_eq (cmd : String) (args : List Frame) :
    commandSlotChecked cmd args = some (commandSlot cmd args) := by
  unfold commandSlotChecked commandSlot singleKeySlot
  split
  · cases bulkBytes args 1 <;> simp
  · split
    · exact allSameSlotChecked_eq args 1 1
    · split
      · exact allSameSlotChecked_eq args 1 2
      · rfl

/-! ## Configurations that were built -/

/-- What `ClusterConfig.new` builds. -/
def ClusterConfig.Built (cfg : ClusterConfig) : Prop :=
  ∃ nodes a, ClusterConfig.new nodes a = .ok cfg

section Built

variable {cfg : ClusterConfig} {nodes : List String} {a : String}

/-- A configuration is built if the address is in the list and there are slots for all nodes. -/
theorem new_eq_ok : ClusterConfig.new nodes a = .ok cfg ↔
    a ∈ nodes ∧ (sortNodes nodes).length ≤ numSlots ∧ cfg = cfgFor (sortNodes nodes) a := by
  have hsort : ClusterConfig.new (sortNodes nodes) a = ClusterConfig.new nodes a := by
    simp only [ClusterConfig.new, sortNodes_of_sorted (sorted_sortNodes nodes)]
  rw [← hsort, new_eq_ok_iff (sorted_sortNodes nodes), mem_sortNodes]

namespace ClusterConfig.Built

theorem of_mem (ha : a ∈ nodes) (hle : (sortNodes nodes).length ≤ numSlots) :
    (cfgFor (sortNodes nodes) a).Built := ⟨nodes, a, new_eq_ok.mpr ⟨ha, hle, rfl⟩⟩

/-- A built configuration is that of one of its nodes. -/
theorem eq_cfgFor (h : cfg.Built) : ∃ a ∈ cfg.nodes, cfg.nodes.Pairwise (· < ·) ∧
    cfg.nodes.length ≤ numSlots ∧ cfg = cfgFor cfg.nodes a := by
  obtain ⟨nodes, a, hnew⟩ := h
  obtain ⟨ha, hle, rfl⟩ := new_eq_ok.mp hnew
  exact ⟨a, mem_sortNodes.mpr ha, sorted_sortNodes nodes, hle, rfl⟩

theorem ne_nil (h : cfg.Built) : cfg.nodes ≠ [] := by
  obtain ⟨a, ha, -⟩ := h.eq_cfgFor
  exact List.ne_nil_of_mem ha

theorem length_le (h : cfg.Built) : cfg.nodes.length ≤ numSlots := by
  obtain ⟨a, -, -, hle, -⟩ := h.eq_cfgFor
  exact hle

/-- The node list of a built configuration is sorted. -/
theorem sorted (h : cfg.Built) : cfg.nodes.Pairwise (· < ·) := by
  obtain ⟨a, -, hsorted, -⟩ := h.eq_cfgFor
  exact hsorted

theorem nodup (h : cfg.Built) : cfg.nodes.Nodup := h.sorted.imp fun hlt => hlt.ne

/-- The index of this node is in the list. -/
theorem myIndex_lt (h : cfg.Built) : cfg.myIndex < cfg.nodes.length := by
  obtain ⟨a, ha, -, -, heq⟩ := h.eq_cfgFor
  rw [heq]
  exact List.idxOf_lt_length_of_mem ha

theorem myAddr_mem (h : cfg.Built) : cfg.myAddr ∈ cfg.nodes := by
  obtain ⟨a, ha, -, -, heq⟩ := h.eq_cfgFor
  rw [heq, myAddr_cfgFor ha]
  exact ha

/-- Building it again gives the same. -/
theorem new_eq (h : cfg.Built) : ClusterConfig.new cfg.nodes cfg.myAddr = .ok cfg := by
  obtain ⟨a, ha, hsorted, hle, heq⟩ := h.eq_cfgFor
  have haddr : cfg.myAddr = a := by rw [heq, myAddr_cfgFor ha]
  rw [new_eq_ok_iff hsorted, haddr]
  exact ⟨ha, hle, heq⟩

end ClusterConfig.Built

end Built

/-! ## The table of a configuration -/

namespace TableConfig

/-- The address of this node, indexed in the node list. -/
def myAddr (cfg : TableConfig) : Option String := cfg.nodes[cfg.myIndex]?

/-- The loop of `slot_ranges_for` over the owners of the slots. -/
def rangesLoop (i : ℕ) : Option ℕ → List (ℕ × ℕ) → Option (List (ℕ × ℕ))
  | none, [] => some []
  | some s, [] => some [(s, numSlots - 1)]
  | start, (owner, slot) :: rest =>
    if owner = i then rangesLoop i (start.orElse fun _ => some slot) rest
    else match start with
      | none => rangesLoop i none rest
      | some s => do
        let last ← unsigned 16 ((slot : ℤ) - 1)
        return (s, last) :: (← rangesLoop i none rest)

/-- The ranges of slots of one node, read off the table. -/
def slotRangesFor (cfg : TableConfig) (i : ℕ) : Option (List (ℕ × ℕ)) :=
  rangesLoop i none cfg.slotToNode.zipIdx

/-- The slots of this node, each looked up in the table. -/
def mySlots (cfg : TableConfig) : Option (List ℕ) :=
  filterLoop cfg.isMine (List.range numSlots)

/-- The nodes that own the slots of this node under `newCfg`, as `slots_to_send` looks them
up. -/
def newOwners (cfg newCfg : TableConfig) : Option (List String) := do
  let slots ← cfg.mySlots
  slots.mapM newCfg.nodeForSlot

end TableConfig

/-- A range is counted in 16 bits, and the sum in 32. -/
def addRange (sum : ℕ) (r : ℕ × ℕ) : Option ℕ := do
  let apart ← unsigned 16 ((r.2 : ℤ) - r.1)
  let n ← unsigned 16 ((apart : ℤ) + 1)
  unsigned 32 ((sum : ℤ) + n)

/-- The number of slots in some ranges. -/
def countSlots (ranges : List (ℕ × ℕ)) : Option ℕ := ranges.foldlM addRange 0

/-! ## Ranges -/

/-- Slots in increasing order, all after the start of a range. -/
structure Ascends (start : Option ℕ) (slots : List ℕ) : Prop where
  sorted : slots.Pairwise (· < ·)
  lt : ∀ slot ∈ slots, slot < numSlots
  start_lt : ∀ s ∈ start, s < numSlots ∧ ∀ slot ∈ slots, s < slot

namespace Ascends

variable {start : Option ℕ} {slot : ℕ} {slots : List ℕ}

theorem range : Ascends none (List.range numSlots) :=
  ⟨List.pairwise_lt_range, fun _ => List.mem_range.mp, fun _ hs => by cases hs⟩

theorem skip (h : Ascends start (slot :: slots)) : Ascends none slots :=
  ⟨(List.pairwise_cons.mp h.sorted).2, fun x hx => h.lt x (List.mem_cons_of_mem slot hx),
    fun _ hs => by cases hs⟩

theorem opens (h : Ascends start (slot :: slots)) :
    Ascends (start.orElse fun _ => some slot) slots := by
  refine ⟨h.skip.sorted, h.skip.lt, fun s hs => ?_⟩
  cases start with
  | none =>
    obtain rfl : slot = s := Option.some.inj hs
    exact ⟨h.lt slot List.mem_cons_self, (List.pairwise_cons.mp h.sorted).1⟩
  | some t =>
    have hlt := h.start_lt s hs
    exact ⟨hlt.1, fun x hx => hlt.2 x (List.mem_cons_of_mem slot hx)⟩

end Ascends

section Ranges

variable {owner : ℕ → ℕ} {i : ℕ}

/-- The difference `slot - 1` of the loop is no underflow, as the slots ascend. -/
theorem rangesLoop_eq : ∀ {slots : List ℕ} {start : Option ℕ}, Ascends start slots →
    TableConfig.rangesLoop i start (slots.map fun slot => (owner slot, slot)) =
      some (ClusterConfig.slotRanges owner i (numSlots - 1) start slots)
  | [], none, _ => rfl
  | [], some s, _ => rfl
  | slot :: slots, none, h => by
    rw [List.map_cons, TableConfig.rangesLoop, ClusterConfig.slotRanges]
    split
    · exact rangesLoop_eq h.opens
    · exact rangesLoop_eq h.skip
  | slot :: slots, some s, h => by
    rw [List.map_cons, TableConfig.rangesLoop, ClusterConfig.slotRanges]
    split
    · exact rangesLoop_eq h.opens
    · -- The range ends before this slot, which is not the first.
      have hs : s < slot := (h.start_lt s rfl).2 slot List.mem_cons_self
      have hlt : slot < numSlots := h.lt slot List.mem_cons_self
      have hwidth : numSlots < 2 ^ 16 := by decide
      have hlast : unsigned 16 ((slot : ℤ) - 1) = some (slot - 1) := by
        rw [unsigned_eq (by omega) (by omega)]
        congr 1
        omega
      rw [hlast, rangesLoop_eq h.skip]
      rfl

/-- There are no more ranges than slots, and their ends are slots. -/
theorem slotRanges_bounds : ∀ {slots : List ℕ} {start : Option ℕ}, Ascends start slots →
    (ClusterConfig.slotRanges owner i (numSlots - 1) start slots).length ≤ slots.length + 1 ∧
      ∀ r ∈ ClusterConfig.slotRanges owner i (numSlots - 1) start slots,
        r.1 ≤ r.2 ∧ r.2 < numSlots
  | [], none, _ => ⟨Nat.zero_le _, fun _ hr => by cases hr⟩
  | [], some s, h => by
    have hs : s < numSlots := (h.start_lt s rfl).1
    refine ⟨Nat.le_refl 1, fun r hr => ?_⟩
    rw [List.mem_singleton.mp hr]
    dsimp only
    omega
  | slot :: slots, none, h => by
    rw [ClusterConfig.slotRanges, List.length_cons]
    split
    · obtain ⟨hlen, hall⟩ := slotRanges_bounds h.opens
      exact ⟨by omega, hall⟩
    · obtain ⟨hlen, hall⟩ := slotRanges_bounds h.skip
      exact ⟨by omega, hall⟩
  | slot :: slots, some s, h => by
    rw [ClusterConfig.slotRanges, List.length_cons]
    split
    · obtain ⟨hlen, hall⟩ := slotRanges_bounds h.opens
      exact ⟨by omega, hall⟩
    · obtain ⟨hlen, hall⟩ := slotRanges_bounds h.skip
      have hs : s < slot := (h.start_lt s rfl).2 slot List.mem_cons_self
      have hlt := h.lt slot List.mem_cons_self
      refine ⟨Nat.succ_le_succ hlen, fun r hr => ?_⟩
      rcases List.mem_cons.mp hr with rfl | hr
      · dsimp only
        omega
      · exact hall r hr

/-- The sum over the ranges has room in 32 bits. -/
theorem addRange_eq {sum : ℕ} {r : ℕ × ℕ} (hle : r.1 ≤ r.2) (hlt : r.2 < numSlots)
    (hsum : sum + numSlots < 2 ^ 32) : addRange sum r = some (sum + (r.2 - r.1 + 1)) := by
  have hwidth : numSlots < 2 ^ 16 := by decide
  have hapart : unsigned 16 ((r.2 : ℤ) - r.1) = some (r.2 - r.1) := by
    rw [unsigned_eq (by omega) (by omega)]
    congr 1
    omega
  have hn : unsigned 16 (((r.2 - r.1 : ℕ) : ℤ) + 1) = some (r.2 - r.1 + 1) :=
    unsigned_eq (by omega) (by omega)
  have hadd : unsigned 32 ((sum : ℤ) + (r.2 - r.1 + 1 : ℕ)) = some (sum + (r.2 - r.1 + 1)) :=
    unsigned_eq (by omega) (by omega)
  refine Option.bind_eq_some_iff.mpr ⟨r.2 - r.1, hapart, ?_⟩
  exact Option.bind_eq_some_iff.mpr ⟨r.2 - r.1 + 1, hn, hadd⟩

/-- Ranges that are no more than the slots are counted without overflow. -/
theorem foldlM_addRange : ∀ {ranges : List (ℕ × ℕ)} {sum : ℕ},
    (∀ r ∈ ranges, r.1 ≤ r.2 ∧ r.2 < numSlots) → sum + ranges.length * numSlots < 2 ^ 32 →
    ranges.foldlM addRange sum = some (sum + (ranges.map fun r => r.2 - r.1 + 1).sum)
  | [], _, _, _ => rfl
  | r :: ranges, sum, hall, hsum => by
    obtain ⟨hle, hlt⟩ := hall r List.mem_cons_self
    rw [List.length_cons, Nat.succ_mul] at hsum
    rw [List.foldlM_cons, addRange_eq hle hlt (by omega), Option.bind_eq_bind, Option.bind_some,
      foldlM_addRange (fun r hr => hall r (List.mem_cons_of_mem _ hr)) (by omega),
      List.map_cons, List.sum_cons, Nat.add_assoc]

/-- The number of slots has room in 32 bits. -/
theorem countSlots_eq {ranges : List (ℕ × ℕ)} (hlen : ranges.length ≤ numSlots + 1)
    (hall : ∀ r ∈ ranges, r.1 ≤ r.2 ∧ r.2 < numSlots) :
    countSlots ranges = some (ranges.map fun r => r.2 - r.1 + 1).sum := by
  have hsum : 0 + ranges.length * numSlots < 2 ^ 32 := by
    calc 0 + ranges.length * numSlots ≤ (numSlots + 1) * numSlots := by
          rw [Nat.zero_add]
          exact Nat.mul_le_mul_right numSlots hlen
      _ < 2 ^ 32 := by norm_num [numSlots]
  rw [countSlots, foldlM_addRange hall hsum, Nat.zero_add]

end Ranges

/-! ## What a built configuration has -/

namespace ClusterConfig.Built

variable {cfg newCfg : ClusterConfig}

theorem myAddr_withTable (h : cfg.Built) : cfg.withTable.myAddr = some cfg.myAddr := by
  change cfg.nodes[cfg.myIndex]? = some (cfg.nodes.getD cfg.myIndex "")
  rw [List.getD_eq_getElem?_getD, List.getElem?_eq_getElem h.myIndex_lt, Option.getD_some]

/-- The table of a built configuration has an entry for each slot. -/
theorem isMine_eq (h : cfg.Built) {slot : ℕ} (hslot : slot < numSlots) :
    cfg.withTable.isMine slot = some (cfg.isMine slot) :=
  TableConfig.isMine_withTable h.ne_nil h.length_le hslot

/-- The entry of a slot is an index into the node list. -/
theorem nodeForSlot_eq (h : cfg.Built) {slot : ℕ} (hslot : slot < numSlots) :
    cfg.withTable.nodeForSlot slot = some (cfg.nodeForSlot slot) :=
  TableConfig.nodeForSlot_withTable h.ne_nil h.length_le hslot

/-- The ranges of a node are read off without an underflow. -/
theorem slotRangesFor_eq (h : cfg.Built) (i : ℕ) :
    cfg.withTable.slotRangesFor i = some (cfg.slotRangesFor i) := by
  have htable : cfg.withTable.slotToNode.zipIdx =
      (List.range numSlots).map fun slot => (cfg.slotToNode slot, slot) := by
    change (buildTable cfg.nodes.length).zipIdx = _
    rw [buildTable_eq (List.length_pos_iff.mpr h.ne_nil) h.length_le]
    refine List.ext_getElem (by simp) fun slot _ _ => ?_
    simp [slotToNode]
  rw [TableConfig.slotRangesFor, htable]
  exact rangesLoop_eq .range

theorem countSlots_eq (cfg : ClusterConfig) (i : ℕ) : countSlots (cfg.slotRangesFor i) =
    some ((cfg.slotRangesFor i).map fun r => r.2 - r.1 + 1).sum := by
  obtain ⟨hlen, hall⟩ := @slotRanges_bounds cfg.slotToNode i _ _ .range
  rw [List.length_range] at hlen
  exact LoonyRedis.countSlots_eq hlen hall

theorem lt_of_mem_mySlots {slot : ℕ} (hslot : slot ∈ cfg.mySlots) : slot < numSlots :=
  List.mem_range.mp (List.mem_filter.mp hslot).1

theorem mySlots_eq (h : cfg.Built) : cfg.withTable.mySlots = some cfg.mySlots :=
  filterLoop_eq fun _ hslot => h.isMine_eq (List.mem_range.mp hslot)

/-- The new owner of each slot of this node is found. -/
theorem newOwners_eq (h : cfg.Built) (hnew : newCfg.Built) :
    cfg.withTable.newOwners newCfg.withTable = some (cfg.mySlots.map newCfg.nodeForSlot) := by
  have hlookup := mapM_eq fun slot (hslot : slot ∈ cfg.mySlots) =>
    hnew.nodeForSlot_eq (lt_of_mem_mySlots hslot)
  rw [TableConfig.newOwners, h.mySlots_eq, Option.bind_eq_bind, Option.bind_some, hlookup]

/-- Each node has slots. -/
theorem mySlots_ne_nil (h : cfg.Built) : cfg.mySlots ≠ [] := by
  have hlt := h.myIndex_lt
  have hle := h.length_le
  have hbase : 0 < numSlots / cfg.nodes.length := Nat.div_pos hle (by omega)
  have hall : numSlots / cfg.nodes.length * cfg.nodes.length ≤ numSlots := Nat.div_mul_le_self _ _
  have hfirst : cfg.myIndex * (numSlots / cfg.nodes.length) <
      numSlots / cfg.nodes.length * cfg.nodes.length := by
    rw [Nat.mul_comm]
    exact Nat.mul_lt_mul_of_pos_left hlt hbase
  refine List.ne_nil_of_mem (a := cfg.myIndex * (numSlots / cfg.nodes.length))
    (List.mem_filter.mpr ⟨List.mem_range.mpr (by omega), decide_eq_true ?_⟩)
  rw [slotToNode, slotTable]
  simp only [hfirst, if_true, Nat.mul_div_cancel _ hbase]
  omega

end ClusterConfig.Built

end LoonyRedis
