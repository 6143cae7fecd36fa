import LoonyRedis.CheckedTables
import LoonyRedis.Lib.Grouping
import LoonyRedis.Ownership

/-!
# The plan of a migration

When the node list changes, each node of the old list sends away the slots that it loses. A
node that stays finds them with `slots_to_send`, which compares an index of the old table
with an address of the new one, and a node that leaves groups all of its slots by their
owner in a routing table of the new list. Both build a map from the receivers to slots, here
as `TableConfig.slotsToSend` and `TableConfig.slotsToDrain`, with the lookups that would
panic outside of a table.

`migration_plan` says that the plans of all nodes of the old list together move each slot
whose owner changes once, from the old owner to the new one, and nothing else.
-/

namespace LoonyRedis

open Std Grouping

/-- The slots that go to each receiver. -/
abbrev Plan := ExtTreeMap String (List ℕ) compare

/-! ## The loops that build a plan -/

/-- A loop that asks for the target of each item, which may panic, and appends the item. -/
def groupChecked (targetOf : ℕ → Option (Option String)) (slots : List ℕ) : Option Plan :=
  slots.foldlM (fun sends slot => do
    match ← targetOf slot with
    | some owner => return push sends owner slot
    | none => return sends) ∅

theorem groupChecked_eq {targetOf : ℕ → Option (Option String)} {target : ℕ → Option String}
    {slots : List ℕ} (h : ∀ slot ∈ slots, targetOf slot = some (target slot)) :
    groupChecked targetOf slots = some (group target slots) := by
  have hloop : ∀ (slots : List ℕ) (sends : Plan),
      (∀ slot ∈ slots, targetOf slot = some (target slot)) →
        (slots.foldlM (fun sends slot => do
          match ← targetOf slot with
          | some owner => return push sends owner slot
          | none => return sends) sends) = some (pushAll target sends slots) := by
    intro slots
    induction slots with
    | nil => exact fun _ _ => rfl
    | cons slot slots ih =>
      intro sends hall
      rw [List.forall_mem_cons] at hall
      rw [List.foldlM_cons, hall.1]
      cases htarget : target slot with
      | none =>
        have hrest := ih sends hall.2
        simpa [pushAll, htarget] using hrest
      | some owner =>
        have hrest := ih (push sends owner slot) hall.2
        simpa [pushAll, htarget] using hrest
  exact hloop slots ∅ h

namespace TableConfig

/-- The loop of `slots_to_send`. -/
def slotsToSend (cfg newCfg : TableConfig) : Option Plan := do
  let myAddr ← cfg.myAddr
  groupChecked (fun slot => do
    let owner ← cfg.slotToNode[slot]?
    if owner ≠ cfg.myIndex then return none
    let newOwner ← newCfg.nodeForSlot slot
    return if newOwner ≠ myAddr then some newOwner else none) (List.range numSlots)

/-- The loop of the handler of `DRAIN` over the slots of this node. -/
def slotsToDrain (cfg routing : TableConfig) : Option Plan := do
  let myAddr ← cfg.myAddr
  let slots ← cfg.mySlots
  groupChecked (fun slot => do
    let owner ← routing.nodeForSlot slot
    return if owner ≠ myAddr then some owner else none) slots

end TableConfig

/-- The plan of the node `a` when the node list `old` becomes `new` : a node of the new list
sends what it loses, another one drains. -/
def planOf (old new : List String) (a : String) : Option Plan :=
  match TableConfig.new old a with
  | .error _ => none
  | .ok cfg =>
    if a ∈ new then
      match TableConfig.new new a with
      | .error _ => none
      | .ok newCfg => cfg.slotsToSend newCfg
    else
      match TableConfig.forRouting new with
      | .error _ => none
      | .ok routing => cfg.slotsToDrain routing

/-! ## What the loops collect -/

section Built

variable {cfg newCfg : ClusterConfig} {routing : TableConfig} {owner : ℕ → String}

/-- A slot goes to its new owner if this node owned it and is not the new owner. -/
def ClusterConfig.sendTarget (cfg newCfg : ClusterConfig) (slot : ℕ) : Option String :=
  if cfg.isMine slot then
    if newCfg.nodeForSlot slot ≠ cfg.myAddr then some (newCfg.nodeForSlot slot) else none
  else none

theorem ClusterConfig.sendTarget_eq_some {slot : ℕ} {t : String} :
    cfg.sendTarget newCfg slot = some t ↔
      cfg.isMine slot = true ∧ newCfg.nodeForSlot slot = t ∧ t ≠ cfg.myAddr := by
  simp only [sendTarget, Option.ite_none_right_eq_some, Option.some.injEq]
  refine and_congr_right fun _ => ?_
  rw [and_comm]
  refine and_congr_right fun heq => ?_
  rw [heq]

theorem slotsToSend_withTable (h : cfg.Built) (hnew : newCfg.Built) :
    cfg.withTable.slotsToSend newCfg.withTable =
      some (group (cfg.sendTarget newCfg) (List.range numSlots)) := by
  rw [TableConfig.slotsToSend, h.myAddr_withTable, Option.bind_eq_bind, Option.bind_some]
  refine groupChecked_eq fun slot hslot => ?_
  have hlt : slot < numSlots := List.mem_range.mp hslot
  have howner : cfg.withTable.slotToNode[slot]? = some (cfg.slotToNode slot) :=
    getElem?_buildTable (List.length_pos_iff.mpr h.ne_nil) h.length_le hlt
  rw [howner, hnew.nodeForSlot_eq hlt, Option.bind_eq_bind, Option.bind_some,
    ClusterConfig.sendTarget, ClusterConfig.isMine]
  have hindex : cfg.withTable.myIndex = cfg.myIndex := rfl
  by_cases hmine : cfg.slotToNode slot = cfg.myIndex
  · simp only [hindex, hmine, ne_eq, not_true_eq_false, if_false, decide_true, if_true]
    rfl
  · simp only [hindex, hmine, ne_eq, not_false_eq_true, if_true, decide_false,
      Bool.false_eq_true, if_false]
    rfl

theorem slotsToDrain_withTable (h : cfg.Built)
    (hrouting : ∀ slot < numSlots, routing.nodeForSlot slot = some (owner slot)) :
    cfg.withTable.slotsToDrain routing =
      some (group (fun slot => if owner slot ≠ cfg.myAddr then some (owner slot) else none)
        cfg.mySlots) := by
  rw [TableConfig.slotsToDrain, h.myAddr_withTable, h.mySlots_eq, Option.bind_eq_bind,
    Option.bind_some, Option.bind_eq_bind, Option.bind_some]
  refine groupChecked_eq fun slot hslot => ?_
  rw [hrouting slot (ClusterConfig.Built.lt_of_mem_mySlots hslot)]
  rfl

/-- The map has the receivers and the slots of `ClusterConfig.slotsToSend`. -/
theorem getElem?_slotsToSend (h : cfg.Built) (hnew : newCfg.Built) :
    ∃ sends, cfg.withTable.slotsToSend newCfg.withTable = some sends ∧ ∀ t : String,
      sends[t]? = if t ∈ cfg.sendTargets newCfg then some (cfg.slotsToSend newCfg t) else none := by
  refine ⟨_, slotsToSend_withTable h hnew, fun t => ?_⟩
  have hfilter : (List.range numSlots).filter (fun slot => cfg.sendTarget newCfg slot = some t) =
      cfg.slotsToSend newCfg t := by
    rw [ClusterConfig.slotsToSend, ClusterConfig.mySlots, List.filter_filter]
    refine List.filter_congr fun slot _ => ?_
    simp only [ClusterConfig.sendTarget_eq_some, ClusterConfig.isMine]
    grind
  have hmem : t ∈ cfg.sendTargets newCfg ↔ cfg.slotsToSend newCfg t ≠ [] := by
    simp only [ClusterConfig.sendTargets, ClusterConfig.slotsToSend, List.mem_dedup,
      List.mem_filter, List.mem_map, decide_eq_true_eq, ne_eq, List.filter_eq_nil_iff]
    grind
  rw [getElem?_group, hfilter]
  by_cases hnil : cfg.slotsToSend newCfg t = []
  · rw [if_pos hnil, if_neg (mt hmem.mp (not_not.mpr hnil))]
  · rw [if_neg hnil, if_pos (hmem.mpr hnil)]

end Built

/-! ## The plans of all nodes -/

section Plans

variable {old new : List String} {a : String}

/-- A node that stays compares the two tables. -/
theorem planOf_of_mem (hold : old.dedup.length ≤ numSlots) (hnew : new.dedup.length ≤ numSlots)
    (ha : a ∈ old) (hstays : a ∈ new) : planOf old new a =
      some (group ((cfgFor (sortNodes old) a).sendTarget (cfgFor (sortNodes new) a))
        (List.range numSlots)) := by
  rw [planOf, TableConfig.new_given hold (fun _ => Iff.rfl) ha]
  simp only [hstays, if_true, TableConfig.new_given hnew (fun _ => Iff.rfl) hstays]
  exact slotsToSend_withTable (.of_mem ha ((length_sortNodes old).trans_le hold))
    (.of_mem hstays ((length_sortNodes new).trans_le hnew))

/-- A node that leaves gives away all its slots. -/
theorem planOf_of_notMem (hold : old.dedup.length ≤ numSlots) (hpos : 1 ≤ new.dedup.length)
    (hnew : new.dedup.length ≤ numSlots) (ha : a ∈ old) (hleaves : a ∉ new) : planOf old new a =
      some (group (fun slot => if ownerOfSlot (sortNodes new) slot ≠
        (cfgFor (sortNodes old) a).myAddr then some (ownerOfSlot (sortNodes new) slot) else none)
        (cfgFor (sortNodes old) a).mySlots) := by
  have hne : new ≠ [] := by
    rintro rfl
    simp at hpos
  have hlen : (sortNodes new).length ≤ numSlots := (length_sortNodes new).trans_le hnew
  have hnodes : (ClusterConfig.forRouting new).nodes ≠ [] := by
    intro hnil
    have hzero := length_sortNodes new
    rw [show sortNodes new = [] from hnil] at hzero
    simp only [List.length_nil] at hzero
    omega
  have howner : ∀ slot < numSlots, (ClusterConfig.forRouting new).withTable.nodeForSlot slot =
      some (ownerOfSlot (sortNodes new) slot) := fun slot hslot =>
    TableConfig.nodeForSlot_withTable hnodes hlen hslot
  rw [planOf, TableConfig.new_given hold (fun _ => Iff.rfl) ha]
  simp only [hleaves, if_false, TableConfig.forRouting_eq hne hlen]
  exact slotsToDrain_withTable (.of_mem ha ((length_sortNodes old).trans_le hold)) howner

/-- The plan of one node : the slots that it owned and another node owns now. -/
theorem planOf_eq (hold : old.dedup.length ≤ numSlots) (hpos : 1 ≤ new.dedup.length)
    (hnew : new.dedup.length ≤ numSlots) (ha : a ∈ old) :
    ∃ plan, planOf old new a = some plan ∧ ((pairs plan).map Prod.snd).Nodup ∧
      ∀ t slot, (t, slot) ∈ pairs plan ↔ slot < numSlots ∧
        ownerOfSlot (sortNodes old) slot = a ∧ ownerOfSlot (sortNodes new) slot = t ∧ t ≠ a := by
  have hmem : a ∈ sortNodes old := mem_sortNodes.mpr ha
  have haddr : (cfgFor (sortNodes old) a).myAddr = a := myAddr_cfgFor hmem
  have hmine (slot : ℕ) : (cfgFor (sortNodes old) a).isMine slot = true ↔
      ownerOfSlot (sortNodes old) slot = a := isMine_slot (nodup_sortNodes old) hmem
  by_cases hstays : a ∈ new
  · refine ⟨_, planOf_of_mem hold hnew ha hstays, nodup_snd_pairs List.nodup_range,
      fun t slot => ?_⟩
    have howner : (cfgFor (sortNodes new) a).nodeForSlot slot =
        ownerOfSlot (sortNodes new) slot := rfl
    rw [mem_pairs_group, List.mem_range, ClusterConfig.sendTarget_eq_some, hmine, howner, haddr]
  · refine ⟨_, planOf_of_notMem hold hpos hnew ha hstays,
      nodup_snd_pairs (List.nodup_range.filter _), fun t slot => ?_⟩
    have hslots : slot ∈ (cfgFor (sortNodes old) a).mySlots ↔
        slot < numSlots ∧ ownerOfSlot (sortNodes old) slot = a := by
      rw [← hmine, ClusterConfig.mySlots, List.mem_filter, List.mem_range]
      rfl
    rw [mem_pairs_group, hslots, haddr]
    grind

/-- The owner that the tables of a node list give. -/
theorem nodeForSlot_new (hle : old.dedup.length ≤ numSlots) {slot : ℕ} (hslot : slot < numSlots)
    (ha : a ∈ old) : ∃ cfg, TableConfig.new old a = .ok cfg ∧
      cfg.nodeForSlot slot = some (ownerOfSlot (sortNodes old) slot) := by
  refine ⟨_, TableConfig.new_given hle (fun _ => Iff.rfl) ha, ?_⟩
  exact ClusterConfig.Built.nodeForSlot_eq (.of_mem ha ((length_sortNodes old).trans_le hle)) hslot

theorem mem_of_ownerOfSlot (hpos : 1 ≤ old.dedup.length) (slot : ℕ) :
    ownerOfSlot (sortNodes old) slot ∈ old := by
  have h := (getD_slotTable hpos slot).1
  rwa [← length_sortNodes] at h

/-- When a node list becomes another, no plan moves a slot twice, the plan of a node moves
the slots that it owned to the nodes that own them now, and the plans of all nodes of the
old list move each slot whose owner changes once. -/
theorem migration_plan (old new : List String) (hold : 1 ≤ old.dedup.length)
    (hold' : old.dedup.length ≤ 16384) (hnew : 1 ≤ new.dedup.length)
    (hnew' : new.dedup.length ≤ 16384) :
    ∃ (oldOwner newOwner : ℕ → String) (plan : String → Plan),
      (∀ slot < 16384, oldOwner slot ∈ old ∧ newOwner slot ∈ new ∧
        (∀ a ∈ old, ∃ cfg, TableConfig.new old a = .ok cfg ∧
          cfg.nodeForSlot slot = some (oldOwner slot)) ∧
        ∀ a ∈ new, ∃ cfg, TableConfig.new new a = .ok cfg ∧
          cfg.nodeForSlot slot = some (newOwner slot)) ∧
      (∀ a ∈ old, planOf old new a = some (plan a) ∧ ((pairs (plan a)).map Prod.snd).Nodup ∧
        ∀ t slot, (t, slot) ∈ pairs (plan a) ↔
          slot < 16384 ∧ oldOwner slot = a ∧ newOwner slot = t ∧ t ≠ a) ∧
      ((old.dedup.flatMap fun a => pairs (plan a)).map Prod.snd).Nodup ∧
      ∀ t slot, (t, slot) ∈ old.dedup.flatMap (fun a => pairs (plan a)) ↔
        slot < 16384 ∧ newOwner slot = t ∧ oldOwner slot ≠ t := by
  have hplan : ∀ a, ∃ plan, a ∈ old → planOf old new a = some plan ∧
      ((pairs plan).map Prod.snd).Nodup ∧ ∀ t slot, (t, slot) ∈ pairs plan ↔ slot < numSlots ∧
        ownerOfSlot (sortNodes old) slot = a ∧ ownerOfSlot (sortNodes new) slot = t ∧ t ≠ a := by
    intro a
    by_cases ha : a ∈ old
    · obtain ⟨plan, hplan⟩ := planOf_eq hold' hnew hnew' ha
      exact ⟨plan, fun _ => hplan⟩
    · exact ⟨∅, fun h => absurd h ha⟩
  choose plan hplan using hplan
  refine ⟨ownerOfSlot (sortNodes old), ownerOfSlot (sortNodes new), plan, fun slot hslot => ?_,
    hplan, ?_, fun t slot => ?_⟩
  · exact ⟨mem_of_ownerOfSlot hold slot, mem_of_ownerOfSlot hnew slot,
      fun a ha => nodeForSlot_new hold' hslot ha, fun a ha => nodeForSlot_new hnew' hslot ha⟩
  · rw [List.map_flatMap, List.nodup_flatMap]
    refine ⟨fun a ha => (hplan a (List.mem_dedup.mp ha)).2.1, ?_⟩
    -- A slot in two plans would have two old owners.
    refine (List.nodup_dedup old).imp_of_mem fun {a b} ha hb hne slot hs hs' => hne ?_
    obtain ⟨⟨t, x⟩, hx, rfl⟩ := List.mem_map.mp hs
    obtain ⟨⟨u, y⟩, hy, hxy⟩ := List.mem_map.mp hs'
    obtain rfl : y = x := hxy
    have hslot := ((hplan a (List.mem_dedup.mp ha)).2.2 t y).mp hx
    have hslot' := ((hplan b (List.mem_dedup.mp hb)).2.2 u y).mp hy
    exact hslot.2.1.symm.trans hslot'.2.1
  · rw [List.mem_flatMap]
    constructor
    · rintro ⟨a, ha, hmem⟩
      obtain ⟨hslot, howner, hnext, hne⟩ := ((hplan a (List.mem_dedup.mp ha)).2.2 t slot).mp hmem
      exact ⟨hslot, hnext, fun heq => hne (heq ▸ howner)⟩
    · rintro ⟨hslot, hnext, hne⟩
      have ha := mem_of_ownerOfSlot hold slot
      refine ⟨_, List.mem_dedup.mpr ha, ((hplan _ ha).2.2 t slot).mpr ?_⟩
      exact ⟨hslot, rfl, hnext, hne.symm⟩

/-- A node joins a cluster of two and one of them leaves. -/
theorem two_nodes_plan : ∃ (oldOwner newOwner : ℕ → String) (plan : String → Plan),
    (∀ a ∈ ["b:1", "a:1"], planOf ["b:1", "a:1"] ["c:1", "b:1"] a = some (plan a)) ∧
      ∀ t slot, (t, slot) ∈ ["b:1", "a:1"].dedup.flatMap (fun a => pairs (plan a)) ↔
        slot < 16384 ∧ newOwner slot = t ∧ oldOwner slot ≠ t := by
  obtain ⟨oldOwner, newOwner, plan, -, hplan, -, hall⟩ :=
    migration_plan ["b:1", "a:1"] ["c:1", "b:1"] (by decide) (by decide) (by decide) (by decide)
  exact ⟨oldOwner, newOwner, plan, fun a ha => (hplan a ha).1, hall⟩

end Plans

end LoonyRedis
