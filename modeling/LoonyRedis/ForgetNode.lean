import LoonyRedis.CheckedTables
import LoonyRedis.Migration

/-!
# The node that `FORGET` removes

The id of a node is the CRC16 of its address, and two addresses may have the same. `CLUSTER
FORGET` removes the first address of the node list that has the id, or that is the text of the
id, and sends `DRAIN` there. This is the node that reports the id, unless another one with its
CRC16 comes before it in the list (`forgets_iff`).
-/

namespace LoonyRedis

/-! ## Ids -/

section Ids

variable {a b : String}

/-- The digits of an id, with the zeros before them. -/
theorem ofDigitChars_nodeId (a : String) :
    Nat.ofDigitChars 10 (nodeId a).toList 0 = (crc16 (Utf8.toBytes a)).toNat := by
  have hdigits : (toString (crc16 (Utf8.toBytes a)).toNat).toList =
      Nat.toDigits 10 (crc16 (Utf8.toBytes a)).toNat := by
    rw [Nat.toString_eq_repr, Nat.toList_repr]
  rw [nodeId, String.toList_append, String.toList_ofList, Nat.ofDigitChars_append,
    Nat.ofDigitChars_replicate_zero, Nat.mul_zero, hdigits, Nat.ofDigitChars_ten_toDigits]

theorem nodeId_eq_iff : nodeId a = nodeId b ↔ crc16 (Utf8.toBytes a) = crc16 (Utf8.toBytes b) := by
  constructor
  · intro h
    refine UInt16.toNat_inj.mp ?_
    rw [← ofDigitChars_nodeId a, ← ofDigitChars_nodeId b, h]
  · intro h
    rw [nodeId, nodeId, h]

/-- In a sorted list, the first element with a property that `x` has is `x`, or it is smaller. -/
theorem find?_eq_some_iff_of_sorted {l : List String} {p : String → Bool} {x : String}
    (hl : l.Pairwise (· < ·)) (hx : x ∈ l) (hp : p x = true) :
    l.find? p = some x ↔ ∀ a ∈ l, a < x → p a = false := by
  induction l with
  | nil => exact absurd hx List.not_mem_nil
  | cons b l ih =>
    obtain ⟨hb, hl⟩ := List.pairwise_cons.mp hl
    by_cases hbx : b = x
    · subst hbx
      rw [List.find?_cons_of_pos hp]
      refine iff_of_true rfl fun a ha hlt => ?_
      obtain rfl | ha := List.mem_cons.mp ha
      · exact absurd hlt (lt_irrefl _)
      · exact absurd (hlt.trans (hb a ha)) (lt_irrefl _)
    · have hx' : x ∈ l := (List.mem_cons.mp hx).resolve_left (Ne.symm hbx)
      rw [List.forall_mem_cons]
      cases hpb : p b with
      | true =>
        rw [List.find?_cons_of_pos hpb]
        exact iff_of_false (fun h => hbx (Option.some.inj h)) fun h =>
          Bool.noConfusion (h.1 (hb x hx'))
      | false =>
        rw [List.find?_cons_of_neg (by rw [hpb]; decide), ih hl hx']
        exact ⟨fun h => ⟨fun _ => rfl, h⟩, fun h => h.2⟩

end Ids

/-! ## The command -/

/-- The node list of the node at `a`. -/
def World.nodesAt (w : World) (a : String) : Option (List String) :=
  (w a).map fun n => n.config.nodes

/-- What the others do when they are called leaves the node list of `me` as it is. -/
def KeepsNodes (rpc : Rpc) (me : String) : Prop :=
  ∀ a frame w, (rpc a frame w).2.nodesAt me = w.nodesAt me

/-- The reply of the node of `cfg` to `CLUSTER MYID`. -/
def ClusterConfig.replyMyId (cfg : ClusterConfig) (rpc : Rpc) (env : Env)
    (rows : List (String × NodeState)) (w : World) : Frame :=
  (cmdCluster rpc env cfg.myAddr cfg (["CLUSTER", "MYID"].map .bulkStr) rows w).1

/-- `CLUSTER FORGET` on the node `me`, with the frame `id` as its argument. -/
def ClusterConfig.forget (cfg : ClusterConfig) (me : String) (id : Frame) (rpc : Rpc) (env : Env)
    (rows : List (String × NodeState)) (w : World) : Frame × World :=
  cmdCluster rpc env me cfg (["CLUSTER", "FORGET"].map .bulkStr ++ [id]) rows w

/-- `FORGET` with `id` removes `x` and no other node, and the last that it sends is `DRAIN`,
to `x`. -/
structure ClusterConfig.Forgets (cfg : ClusterConfig) (me : String) (id : Frame) (x : String) :
    Prop where
  removed : ∀ rpc env rows w, KeepsNodes rpc me → w.nodesAt me = some cfg.nodes →
    (cfg.forget me id rpc env rows w).2.nodesAt me = some (cfg.nodes.filter (· ≠ x))
  drained : ∀ rpc env rows w, ∃ w', (cfg.forget me id rpc env rows w).2 =
    (rpc x (drainFrame (nodesList (cfg.nodes.filter (· ≠ x)))) w').2

section Forget

variable {cfg self : ClusterConfig} {me x y : String} {rpc : Rpc} {env : Env}
  {rows : List (String × NodeState)} {w : World}

theorem ClusterConfig.replyMyId_eq (self : ClusterConfig) (rpc : Rpc) (env : Env)
    (rows : List (String × NodeState)) (w : World) :
    self.replyMyId rpc env rows w = .bulkStr (nodeId self.myAddr) := by
  have hsub : ((bulkAsStr (["CLUSTER", "MYID"].map .bulkStr) 1).map Text.toUppercase).getD "" =
      "MYID" := by decide +kernel
  simp only [replyMyId, cmdCluster, hsub]

theorem nodesAt_setConfig (w : World) (cfg : ClusterConfig) :
    (w.setConfig me cfg).nodesAt me = (w.nodesAt me).map fun _ => cfg.nodes := by
  rw [World.nodesAt, World.setConfig, Function.update_self, World.nodesAt, Option.map_map,
    Option.map_map]
  rfl

theorem KeepsNodes.sendAll (h : KeepsNodes rpc me) (frame : Frame) (peers : List String)
    (w : World) : (sendAll rpc frame peers w).nodesAt me = w.nodesAt me := by
  induction peers generalizing w with
  | nil => rfl
  | cons peer peers ih => exact (ih _).trans (h peer frame w)

theorem ClusterConfig.forget_eq_clusterForget (cfg : ClusterConfig) (id : String) :
    cfg.forget me (.bulkStr id) rpc env rows w =
      clusterForget rpc me cfg (["CLUSTER", "FORGET", id].map .bulkStr) w := by
  have hsub : ((bulkAsStr (["CLUSTER", "FORGET", id].map .bulkStr) 1).map
      Text.toUppercase).getD "" = "FORGET" := by
    change ((bulkAsStr (["CLUSTER", "FORGET"].map .bulkStr) 1).map
      Text.toUppercase).getD "" = "FORGET"
    decide +kernel
  change cmdCluster rpc env me cfg (["CLUSTER", "FORGET", id].map .bulkStr) rows w = _
  simp only [cmdCluster, hsub]

theorem bulkAsStr_forget (id : String) :
    bulkAsStr (["CLUSTER", "FORGET", id].map .bulkStr) 2 = some id :=
  bulkAsStr_of_getElem? rfl

/-- The node list is committed, then sent to the peers and last to the node that leaves. -/
theorem ClusterConfig.forget_eq {newCfg : ClusterConfig} {id : String}
    (hfind : (cfg.nodes.find? fun a => nodeId a = id ∨ a = id) = some y)
    (hy : y ≠ cfg.myAddr)
    (hnew : ClusterConfig.new (cfg.nodes.filter (· ≠ y)) cfg.myAddr = .ok newCfg) :
    (cfg.forget me (.bulkStr id) rpc env rows w).2 =
      (rpc y (drainFrame (nodesList (cfg.nodes.filter (· ≠ y))))
        (sendAll rpc (syncFrame (nodesList (cfg.nodes.filter (· ≠ y))))
          (cfg.nodes.filter fun a => a ≠ cfg.myAddr ∧ a ≠ y) (w.setConfig me newCfg))).2 := by
  have hlen : ¬ (["CLUSTER", "FORGET", id].map Frame.bulkStr).length < 3 := Nat.lt_irrefl 3
  rw [forget_eq_clusterForget, clusterForget, if_neg hlen, bulkAsStr_forget]
  simp only [hfind, if_neg hy, hnew]
  split <;> rfl

/-- The node does not forget itself. -/
theorem ClusterConfig.forget_self {id : String}
    (hfind : (cfg.nodes.find? fun a => nodeId a = id ∨ a = id) = some cfg.myAddr) :
    (cfg.forget me (.bulkStr id) rpc env rows w).2 = w := by
  have hlen : ¬ (["CLUSTER", "FORGET", id].map Frame.bulkStr).length < 3 := Nat.lt_irrefl 3
  rw [forget_eq_clusterForget, clusterForget, if_neg hlen, bulkAsStr_forget]
  simp only [hfind, if_true]

/-- The list without another node can be committed. -/
theorem ClusterConfig.Built.new_remove (h : cfg.Built) (hy : y ≠ cfg.myAddr) :
    ∃ newCfg, ClusterConfig.new (cfg.nodes.filter (· ≠ y)) cfg.myAddr = .ok newCfg ∧
      newCfg.nodes = cfg.nodes.filter (· ≠ y) := by
  have hme : cfg.myAddr ∈ cfg.nodes.filter (· ≠ y) :=
    List.mem_filter.mpr ⟨h.myAddr_mem, decide_eq_true hy.symm⟩
  have hle : (cfg.nodes.filter (· ≠ y)).length ≤ numSlots :=
    (List.length_filter_le _ _).trans h.length_le
  exact ⟨_, (new_eq_ok_iff (h.sorted.sublist List.filter_sublist)).mpr ⟨hme, hle, rfl⟩, rfl⟩

/-- What is left of the node list, if the others leave it alone. -/
theorem ClusterConfig.Built.nodesAt_forget (h : cfg.Built) {id : String}
    (hfind : (cfg.nodes.find? fun a => nodeId a = id ∨ a = id) = some y) (hy : y ≠ cfg.myAddr)
    (hrpc : KeepsNodes rpc me) (hw : w.nodesAt me = some cfg.nodes) :
    (cfg.forget me (.bulkStr id) rpc env rows w).2.nodesAt me =
      some (cfg.nodes.filter (· ≠ y)) := by
  obtain ⟨newCfg, hnew, hnodes⟩ := h.new_remove hy
  rw [forget_eq hfind hy hnew, hrpc, hrpc.sendAll, nodesAt_setConfig, hw, Option.map_some, hnodes]

/-- `FORGET` with the id of the node that was found. -/
theorem ClusterConfig.Built.forgets_of_find (h : cfg.Built) {id : String}
    (hfind : (cfg.nodes.find? fun a => nodeId a = id ∨ a = id) = some y) (hy : y ≠ cfg.myAddr) :
    cfg.Forgets me (.bulkStr id) y := by
  obtain ⟨newCfg, hnew, -⟩ := h.new_remove hy
  refine ⟨fun rpc env rows w hrpc hw => h.nodesAt_forget hfind hy hrpc hw,
    fun rpc env rows w => ⟨_, forget_eq hfind hy hnew⟩⟩

/-- No other node is forgotten. -/
theorem ClusterConfig.Built.eq_of_forgets (h : cfg.Built) {id : String}
    (hfind : (cfg.nodes.find? fun a => nodeId a = id ∨ a = id) = some y)
    (hx : x ∈ cfg.nodes) (hforgets : cfg.Forgets me (.bulkStr id) x) : y = x := by
  -- Nodes that answer every call, and do nothing.
  have hrpc : KeepsNodes (fun _ _ w => (.ok, w)) me := fun _ _ _ => rfl
  have hw : World.nodesAt (fun _ => some ⟨∅, cfg⟩) me = some cfg.nodes := rfl
  have hremoved := hforgets.removed _ (.plain 0) [] _ hrpc hw
  have hgone : x ∉ cfg.nodes.filter (· ≠ x) := by simp
  by_cases hy : y = cfg.myAddr
  · rw [hy] at hfind
    rw [forget_self hfind, hw] at hremoved
    rw [← Option.some.inj hremoved] at hgone
    exact absurd hx hgone
  · rw [h.nodesAt_forget hfind hy hrpc hw] at hremoved
    rw [← Option.some.inj hremoved] at hgone
    by_contra hyx
    exact hgone (List.mem_filter.mpr ⟨hx, decide_eq_true (Ne.symm hyx)⟩)

/-- The node that reports the id is forgotten if and only if no node before it in the list has
its CRC16, or is called like the id. -/
theorem forgets_iff (h : cfg.Built) (hx : self.myAddr ∈ cfg.nodes)
    (hne : self.myAddr ≠ cfg.myAddr) :
    cfg.Forgets me (self.replyMyId rpc env rows w) self.myAddr ↔
      ∀ a ∈ cfg.nodes, a < self.myAddr →
        crc16 (Utf8.toBytes a) ≠ crc16 (Utf8.toBytes self.myAddr) ∧ a ≠ nodeId self.myAddr := by
  have hfind : (cfg.nodes.find? fun a => nodeId a = nodeId self.myAddr ∨ a = nodeId self.myAddr) =
      some self.myAddr ↔ ∀ a ∈ cfg.nodes, a < self.myAddr →
        crc16 (Utf8.toBytes a) ≠ crc16 (Utf8.toBytes self.myAddr) ∧ a ≠ nodeId self.myAddr := by
    rw [find?_eq_some_iff_of_sorted h.sorted hx (decide_eq_true (.inl rfl))]
    refine forall₂_congr fun a _ => imp_congr_right fun _ => ?_
    rw [decide_eq_false_iff_not, not_or, nodeId_eq_iff]
  rw [← hfind, ClusterConfig.replyMyId_eq]
  refine ⟨fun hforgets => ?_, fun hfound => h.forgets_of_find hfound hne⟩
  generalize hfound : (cfg.nodes.find? fun a =>
    nodeId a = nodeId self.myAddr ∨ a = nodeId self.myAddr) = found
  cases found with
  | none => exact absurd (List.find?_eq_none.mp hfound _ hx) (by simp)
  | some y => rw [h.eq_of_forgets hfound hx hforgets]

end Forget

/-! ## Two addresses with one id -/

section Collision

/-- The first and the last of them have one CRC16. -/
def sameChecksum : List String := ["127.0.0.1:2885", "127.0.0.1:6379", "127.0.0.1:8660"]

theorem built_sameChecksum {a : String} (ha : a ∈ sameChecksum) : (cfgFor sameChecksum a).Built :=
  ⟨sameChecksum, a, (new_eq_ok_iff (by decide)).mpr ⟨ha, by decide, rfl⟩⟩

/-- What `a` replies to `MYID`, to a client that has reached no other node. -/
def sentId (a : String) : Frame :=
  (cfgFor sameChecksum a).replyMyId (fun _ _ w => (.ok, w)) (.plain 0) [] fun _ => none

/-- The last node is named, and the first is removed. -/
theorem forget_removes_another :
    ¬ (cfgFor sameChecksum "127.0.0.1:6379").Forgets "127.0.0.1:6379" (sentId "127.0.0.1:8660")
        "127.0.0.1:8660" ∧
      (cfgFor sameChecksum "127.0.0.1:6379").Forgets "127.0.0.1:6379" (sentId "127.0.0.1:8660")
        "127.0.0.1:2885" := by
  have hbuilt : (cfgFor sameChecksum "127.0.0.1:6379").Built := built_sameChecksum (by decide)
  have hfind : ((cfgFor sameChecksum "127.0.0.1:6379").nodes.find? fun a =>
      nodeId a = nodeId "127.0.0.1:8660" ∨ a = nodeId "127.0.0.1:8660") =
      some "127.0.0.1:2885" := by
    decide +kernel
  have haddr : (cfgFor sameChecksum "127.0.0.1:8660").myAddr = "127.0.0.1:8660" :=
    myAddr_cfgFor (by decide)
  have hme : (cfgFor sameChecksum "127.0.0.1:6379").myAddr = "127.0.0.1:6379" :=
    myAddr_cfgFor (by decide)
  rw [sentId, ClusterConfig.replyMyId_eq, haddr]
  constructor
  · intro hforgets
    have hmem : "127.0.0.1:8660" ∈ (cfgFor sameChecksum "127.0.0.1:6379").nodes := by decide
    exact absurd (hbuilt.eq_of_forgets hfind hmem hforgets) (by decide)
  · exact hbuilt.forgets_of_find hfind (by rw [hme]; decide)

/-- The first node is removed when it is named. -/
theorem forget_first : (cfgFor sameChecksum "127.0.0.1:6379").Forgets "127.0.0.1:6379"
    (sentId "127.0.0.1:2885") "127.0.0.1:2885" := by
  have haddr : (cfgFor sameChecksum "127.0.0.1:2885").myAddr = "127.0.0.1:2885" :=
    myAddr_cfgFor (by decide)
  have hme : (cfgFor sameChecksum "127.0.0.1:6379").myAddr = "127.0.0.1:6379" :=
    myAddr_cfgFor (by decide)
  have hforgets := (@forgets_iff (cfgFor sameChecksum "127.0.0.1:6379")
    (cfgFor sameChecksum "127.0.0.1:2885") "127.0.0.1:6379" (fun _ _ w => (.ok, w)) (.plain 0) []
    (fun _ => none) (built_sameChecksum (by decide)) (by rw [haddr]; decide)
    (by rw [haddr, hme]; decide)).mpr
  rw [haddr] at hforgets
  exact hforgets (by decide +kernel)

end Collision

end LoonyRedis
