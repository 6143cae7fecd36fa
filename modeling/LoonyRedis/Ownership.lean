import LoonyRedis.KeyAccess
import LoonyRedis.Lib.Runs
import LoonyRedis.ReadOnly
import LoonyRedis.Resharding

/-!
# The slots of a node and its keys

The nodes of a cluster with one node list serve clients. Each key should stay with the owner of
its slot. `commandSlot` finds the keys in the arguments of a command from a list of command
names, and the handlers take them from there by themselves; the two agree for the names on
the list (`slot_of_keyArg`), up to the decoding of the keys. The other commands with keys run
where they arrive.

So every key stays at home as long as clients send these other commands to the owners of their
keys, and decoding a key does not change the owner of its slot (`AtHome`). The invariant is
`World.Owned`, one step is `owned_step`, and `slots_owned` is about whole runs.
-/

namespace LoonyRedis

open Std Store Footprint

/-! ## Where a command belongs -/

/-- The owner of a slot under a sorted node list. -/
def ownerOfSlot (nodes : List String) (slot : ℕ) : String :=
  nodes.getD (slotTable nodes.length slot) ""

/-- The commands whose keys `commandSlot` looks for. -/
def isRouted (name : String) : Bool :=
  name ∈ singleKeyCommands ∨ name ∈ ["DEL", "UNLINK", "EXISTS", "MGET"] ∨ name ∈ ["MSET", "MSETNX"]

section Slots

variable {name : String} {args : List Frame} {ks : List Bytes} {b : Bytes} {slot : ℕ}

theorem keyPlace_singleKey : ∀ name ∈ singleKeyCommands, keyPlace name = .first := by
  decide

theorem commandSlot_of_not_isRouted (h : isRouted name = false) :
    commandSlot name args = .none := by
  simp only [isRouted, decide_eq_false_iff_not, not_or] at h
  rw [commandSlot, if_neg h.1, if_neg h.2.1, if_neg h.2.2]

theorem mem_strideSlots {start stride i : ℕ} (hi : start ≤ i) (hstride : (i - start) % stride = 0)
    (hb : bulkBytes args i = some b) : slotForKey b ∈ strideSlots args start stride := by
  have hlt : i < args.length := by
    by_contra hge
    rw [bulkBytes, List.getElem?_eq_none (Nat.le_of_not_lt hge)] at hb
    cases hb
  rw [strideSlots, List.mem_filterMap]
  exact ⟨i, List.mem_range.mpr hlt, by rw [if_pos ⟨hi, hstride⟩, hb]; rfl⟩

/-- All keys of a command with several keys are in its slot. -/
theorem slot_of_allSameSlot {start stride : ℕ} {s : ℕ} (hs : s ∈ strideSlots args start stride)
    (h : allSameSlot args start stride = .slot slot) : s = slot := by
  unfold allSameSlot at h
  split at h
  · cases h
  · next t slots heq =>
    split at h
    · next hall =>
      obtain rfl := CommandSlot.slot.inj h
      rw [heq] at hs
      rcases List.mem_cons.mp hs with rfl | hs
      · rfl
      · simpa using List.all_eq_true.mp hall s hs
    · cases h

theorem allSameSlot_ne_none {start stride : ℕ} {s : ℕ} (hs : s ∈ strideSlots args start stride) :
    allSameSlot args start stride ≠ .none := by
  unfold allSameSlot
  split
  · next heq =>
    rw [heq] at hs
    cases hs
  · split <;> exact nofun

theorem mem_bulksFrom_one (h : b ∈ bulksFrom args 1) : slotForKey b ∈ strideSlots args 1 1 := by
  obtain ⟨f, hf, hb⟩ := List.mem_filterMap.mp h
  obtain ⟨i, hi, rfl⟩ := List.mem_iff_getElem.mp hf
  have hlt : 1 + i < args.length := by
    simp only [List.length_drop] at hi
    omega
  refine mem_strideSlots (i := 1 + i) (Nat.le_add_right 1 i) (Nat.mod_one _) ?_
  rw [bulkBytes, List.getElem?_eq_getElem hlt, Option.bind_some, ← hb, List.getElem_drop]

theorem bulkPairs_key : ∀ {fs : List Frame} {p : Bytes × Bytes}, p ∈ bulkPairs fs →
    ∃ j, (fs[2 * j]?).bind Frame.payload = some p.1
  | f :: g :: rest, p, h => by
    rw [bulkPairs] at h
    split at h
    · next a b hf hg =>
      rcases List.mem_cons.mp h with rfl | h
      · exact ⟨0, hf⟩
      · obtain ⟨j, hj⟩ := bulkPairs_key h
        exact ⟨j + 1, by simpa [Nat.mul_succ] using hj⟩
    · obtain ⟨j, hj⟩ := bulkPairs_key h
      exact ⟨j + 1, by simpa [Nat.mul_succ] using hj⟩

theorem mem_pairs (h : b ∈ (bulkPairs (args.drop 1)).map Prod.fst) :
    slotForKey b ∈ strideSlots args 1 2 := by
  obtain ⟨p, hp, rfl⟩ := List.mem_map.mp h
  obtain ⟨j, hj⟩ := bulkPairs_key hp
  refine mem_strideSlots (i := 1 + 2 * j) (Nat.le_add_right 1 _) (by omega) ?_
  rwa [List.getElem?_drop] at hj

/-- Where `commandSlot` finds a key and the handler of the command too, its slot is the one
of the command. -/
theorem slot_of_keyArg (hrouted : isRouted name = true) (hks : keyArgs name args = some ks)
    (hb : b ∈ ks) : commandSlot name args ≠ .none ∧
      ∀ slot, commandSlot name args = .slot slot → slotForKey b = slot := by
  have hmulti : ∀ {start stride : ℕ}, slotForKey b ∈ strideSlots args start stride →
      allSameSlot args start stride ≠ .none ∧
        ∀ slot, allSameSlot args start stride = .slot slot → slotForKey b = slot :=
    fun hmem => ⟨allSameSlot_ne_none hmem, fun _ => slot_of_allSameSlot hmem⟩
  by_cases hsingle : name ∈ singleKeyCommands
  · rw [keyArgs, keyPlace_singleKey name hsingle] at hks
    obtain rfl := Option.some.inj hks
    rw [Option.mem_toList] at hb
    rw [commandSlot, if_pos hsingle, singleKeySlot, hb]
    exact ⟨CommandSlot.noConfusion, fun slot h => CommandSlot.slot.inj h⟩
  rw [commandSlot, if_neg hsingle]
  simp only [isRouted, decide_eq_true_eq, hsingle, false_or] at hrouted
  by_cases hevery : name ∈ ["DEL", "UNLINK", "EXISTS", "MGET"]
  · rw [if_pos hevery]
    have hplace : keyArgs name args = some (bulksFrom args 1) ∨ keyArgs name args = some [] := by
      simp only [List.mem_cons, List.not_mem_nil, or_false] at hevery
      rcases hevery with rfl | rfl | rfl | rfl
      exacts [Or.inl rfl, Or.inr rfl, Or.inl rfl, Or.inl rfl]
    rcases hplace with hplace | hplace <;> obtain rfl := Option.some.inj (hks.symm.trans hplace)
    · exact hmulti (mem_bulksFrom_one hb)
    · cases hb
  · have hpairs := hrouted.resolve_left hevery
    rw [if_neg hevery, if_pos hpairs]
    have hplace : keyArgs name args = some ((bulkPairs (args.drop 1)).map Prod.fst) ∨
        keyArgs name args = some [] := by
      simp only [List.mem_cons, List.not_mem_nil, or_false] at hpairs
      rcases hpairs with rfl | rfl
      exacts [Or.inl rfl, Or.inr rfl]
    rcases hplace with hplace | hplace <;> obtain rfl := Option.some.inj (hks.symm.trans hplace)
    · exact hmulti (mem_pairs hb)
    · cases hb

end Slots

/-! ## Routing -/

/-- The keys that a command names are in slots of one node : the owner of the slots of their
bytes, which `commandSlot` finds, or the node `a` that the command is sent to, if it is one
that `commandSlot` does not know. -/
def AtHome (nodes : List String) (a : String) (frame : Frame) : Prop :=
  ∀ name args ks, frame = .array (some args) → frameName frame = some name →
    keyArgs name args = some ks → ∀ b ∈ ks, ownerOf nodes (Utf8.lossy b) =
      if isRouted name then ownerOfSlot nodes (slotForKey b) else a

/-- A key that is valid text keeps its slot. -/
theorem ownerOf_lossy {nodes : List String} {b : Bytes} (h : Utf8.toBytes (Utf8.lossy b) = b) :
    ownerOf nodes (Utf8.lossy b) = ownerOfSlot nodes (slotForKey b) := by
  rw [ownerOf, h]
  rfl

/-- The keys that a request reads or writes on a node with the store `s`. -/
def Request.accesses (s : Store) (r : Request) : List String := r.keyList.getD s.keys

section Routing

variable {nodes : List String} {a : String} {name : String} {args : List Frame} {r : Request}

/-- A data command is dispatched where it belongs. -/
theorem routeHere_nodeContext {cfg : ClusterConfig} (h : ¬ (name = "CLUSTER" ∨ name = "MIGRATE")) :
    routeHere (nodeContext cfg) name args = .dispatch name args := by
  simp [routeHere, nodeContext, CommandContext.standalone, h]

/-- The keys of a command that a node dispatches are its own. -/
theorem ownerOf_of_dispatch (hnd : nodes.Nodup) (ha : a ∈ nodes)
    (hhome : AtHome nodes a (.array (some args)))
    (hname : frameName (.array (some args)) = some name)
    (hroute : clusterRoute (cfgFor nodes a) name args = none) {ks : List Bytes}
    (hks : keyArgs name args = some ks) {b : Bytes} (hb : b ∈ ks) :
    ownerOf nodes (Utf8.lossy b) = a := by
  have hown := hhome name args ks rfl hname hks b hb
  cases hrouted : isRouted name with
  | false => simpa [hrouted] using hown
  | true =>
    obtain ⟨hne, hslot⟩ := slot_of_keyArg hrouted hks hb
    rw [hrouted, if_pos rfl] at hown
    rw [hown]
    unfold clusterRoute at hroute
    cases hcmd : commandSlot name args with
    | none => exact absurd hcmd hne
    | crossSlot => simp [hcmd] at hroute
    | slot slot =>
      rw [hslot slot hcmd]
      simp only [hcmd] at hroute
      split at hroute
      · next hmine => exact (isMine_slot hnd ha).mp hmine
      · cases hroute

end Routing

/-! ## The nodes -/

/-- The nodes of a sorted list are up and share it. -/
structure World.Shares (w : World) (nodes : List String) : Prop where
  sorted : nodes.Pairwise (· < ·)
  up : ∀ a ∈ nodes, ∃ s, w a = some ⟨s, cfgFor nodes a⟩

/-- Every key is with the owner of its slot. -/
def World.Owned (w : World) (nodes : List String) : Prop :=
  ∀ a ∈ nodes, ∀ k e, w.entry a k = some e → ownerOf nodes k = a

/-- All keys that the command reads or writes on the node `a` are in slots of `a`. -/
def OwnKeys (nodes : List String) (w : World) (a name : String) (args : List Frame) : Prop :=
  ∀ r n, readCommand (nodeContext (cfgFor nodes a)) name args = .ok r → w a = some n →
    ∀ k ∈ r.accesses n.store, ownerOf nodes k = a

/-- What may become of a frame that is sent to the node `a` : it is dispatched there, on keys of
`a`; it is proxied to another node, which dispatches it on keys of its own; or it is refused,
because its keys are in several slots or it has no command name. -/
def Served (nodes : List String) (w : World) (a : String) (frame : Frame) : Prop :=
  match route (nodeContext (cfgFor nodes a)) frame with
  | .dispatch name args => OwnKeys nodes w a name args
  | .proxy t args => t ∈ nodes ∧ t ≠ a ∧ ∃ name,
      route (nodeContext (cfgFor nodes t)) (.array (some args)) = .dispatch name args ∧
      OwnKeys nodes w t name args
  | .reply f => f = .error "CROSSSLOT Keys in request don't hash to the same slot" ∨
      frameName frame = none
  | _ => False

section Nodes

variable {nodes : List String} {w : World} {a : String} {frame : Frame} {name : String}
  {args : List Frame}

theorem World.Shares.nodup (h : w.Shares nodes) : nodes.Nodup := h.sorted.imp fun hlt => hlt.ne

theorem ownerOfSlot_mem (hne : nodes ≠ []) (slot : ℕ) : ownerOfSlot nodes slot ∈ nodes := by
  have hlt : slotTable nodes.length slot < nodes.length := slotTable_lt (List.length_pos_iff.mpr hne)
  rw [ownerOfSlot, List.getD_eq_getElem?_getD, List.getElem?_eq_getElem hlt]
  exact List.getElem_mem hlt

theorem ownKeys_of_dispatch (hw : w.Shares nodes) (howned : w.Owned nodes) (ha : a ∈ nodes)
    (hhome : AtHome nodes a (.array (some args)))
    (hname : frameName (.array (some args)) = some name)
    (hroute : clusterRoute (cfgFor nodes a) name args = none) : OwnKeys nodes w a name args := by
  intro r n hread hn k hk
  have hlist := keyList_of_readCommand hread
  cases hks : keyArgs name args with
  | none =>
    rw [Request.accesses, hlist, hks] at hk
    obtain ⟨e, he⟩ := Option.isSome_iff_exists.mp
      (ExtTreeMap.mem_iff_isSome_getElem?.mp (ExtTreeMap.mem_keys.mp hk))
    exact howned a ha k e (by rw [World.entry, hn, Option.bind_some, he])
  | some ks =>
    rw [Request.accesses, hlist, hks] at hk
    obtain ⟨b, hb, rfl⟩ := List.mem_map.mp hk
    exact ownerOf_of_dispatch hw.nodup ha hhome hname hroute hks hb

theorem served_of_atHome (hw : w.Shares nodes) (howned : w.Owned nodes) (ha : a ∈ nodes)
    (hdata : isData frame = true) (hhome : AtHome nodes a frame) : Served nodes w a frame := by
  unfold Served
  cases hname : frameName frame with
  | none =>
    obtain ⟨f, hf⟩ := route_of_no_frameName hname (nodeContext (cfgFor nodes a))
    rw [hf]
    exact Or.inr rfl
  | some name =>
    obtain ⟨args, rfl, hroute⟩ := route_of_frameName hname
    have hlocal : ¬ (name = "CLUSTER" ∨ name = "MIGRATE") := by
      obtain ⟨cmd, hcmd, rfl⟩ := Option.map_eq_some_iff.mp hname
      simpa [isData, hcmd] using hdata
    have hcluster : name ≠ "CLUSTER" := fun h => hlocal (Or.inl h)
    have hhere : ∀ {b}, clusterRoute (cfgFor nodes b) name args = none →
        route (nodeContext (cfgFor nodes b)) (.array (some args)) = .dispatch name args := by
      intro b hnone
      rw [hroute, routeCommand_nodeContext _ hcluster, hnone]
      exact routeHere_nodeContext hlocal
    cases hcmd : clusterRoute (cfgFor nodes a) name args with
    | none =>
      rw [hhere hcmd]
      exact ownKeys_of_dispatch hw howned ha hhome hname hcmd
    | some r =>
      rw [hroute, routeCommand_nodeContext _ hcluster, hcmd]
      unfold clusterRoute at hcmd
      cases hslot : commandSlot name args with
      | none => simp [hslot] at hcmd
      | crossSlot =>
        rw [hslot] at hcmd
        obtain rfl := Option.some.inj hcmd
        exact Or.inl rfl
      | slot slot =>
        simp only [hslot] at hcmd
        split at hcmd
        · cases hcmd
        · next hmine =>
          obtain rfl := Option.some.inj hcmd
          have ht : ownerOfSlot nodes slot ∈ nodes := ownerOfSlot_mem (List.ne_nil_of_mem ha) slot
          have hmine' : (cfgFor nodes (ownerOfSlot nodes slot)).isMine slot = true :=
            (isMine_slot hw.nodup ht).mpr rfl
          have hthere : clusterRoute (cfgFor nodes (ownerOfSlot nodes slot)) name args = none := by
            simp only [clusterRoute, hslot, hmine', if_true]
          have hrouted : isRouted name = true := by
            by_contra h
            rw [commandSlot_of_not_isRouted (by simpa using h)] at hslot
            cases hslot
          have hhome' : AtHome nodes (ownerOfSlot nodes slot) (.array (some args)) := by
            intro name' args' ks hargs hname' hks b hb
            obtain rfl : name = name' := Option.some.inj (hname.symm.trans hname')
            have h := hhome name args' ks hargs hname' hks b hb
            rwa [hrouted, if_pos rfl] at h ⊢
          refine ⟨ht, ?_, name, hhere hthere, ownKeys_of_dispatch hw howned ht hhome' hname hthere⟩
          intro heq
          exact hmine ((isMine_slot hw.nodup ha).mpr heq)

/-! ## Steps -/

/-- A frame of a client, the node that it is sent to, and the surroundings of the nodes. -/
structure ClientEvent where
  env : ClusterEnv
  node : String
  frame : Frame

/-- A client sends a data command to a node of the list. -/
def clientStep (nodes : List String) (depth : ℕ) (w : World) (ev : ClientEvent) : Option World :=
  if ev.node ∈ nodes ∧ isData ev.frame = true then
    some (serve ev.env (depth + 2) ev.node ev.frame w).2
  else none

/-- A frame that is served so changes at most the store of the node that dispatches it. -/
theorem serve_of_served {E : ClusterEnv} (depth : ℕ) (hw : w.Shares nodes) (ha : a ∈ nodes)
    (h : Served nodes w a frame) : (serve E (depth + 2) a frame w).2 = w ∨
      ∃ b ∈ nodes, ∃ name args s, w b = some ⟨s, cfgFor nodes b⟩ ∧ OwnKeys nodes w b name args ∧
        (serve E (depth + 2) a frame w).2 =
          w.setStore b (dispatch (nodeContext (cfgFor nodes b)) (E.env b) name args s).store := by
  obtain ⟨s, hs⟩ := hw.up a ha
  unfold Served at h
  rw [serve, hs]
  simp only
  split at h
  · next name args hroute =>
    rw [hroute]
    exact Or.inr ⟨a, ha, name, args, s, hs, h, rfl⟩
  · next t args hroute =>
    obtain ⟨ht, -, name, hthere, hown⟩ := h
    obtain ⟨s', hs'⟩ := hw.up t ht
    rw [hroute]
    refine Or.inr ⟨t, ht, name, args, s', hs', hown, ?_⟩
    simp only
    rw [serve, hs']
    simp only [hthere]
  · next f hroute =>
    rw [hroute]
    exact Or.inl rfl
  · exact h.elim

/-- A request about the whole store puts no new key there. -/
theorem mem_of_global {r : Request} {ctx : CommandContext} {env : Env} {s : Store} {k : String}
    {e : Entry} (hr : r.keyList = none) (he : (r.run ctx env s).store[k]? = some e) :
    ∃ e', s[k]? = some e' := by
  cases r with
  | info | keys | dbsize => exact ⟨e, he⟩
  | flush =>
    change (∅ : Store)[k]? = some e at he
    simp at he
  | _ => cases hr

/-- What a command leaves in the store is there before, or is one of its keys. -/
theorem mem_of_dispatch {s : Store} {env : Env} {k : String} {e : Entry}
    (hs : w a = some ⟨s, cfgFor nodes a⟩) (howned : w.Owned nodes) (ha : a ∈ nodes)
    (hown : OwnKeys nodes w a name args)
    (he : (dispatch (nodeContext (cfgFor nodes a)) env name args s).store[k]? = some e) :
    ownerOf nodes k = a := by
  have hbefore : ∀ e', s[k]? = some e' → ownerOf nodes k = a := by
    intro e' he'
    exact howned a ha k e' (by rw [World.entry, hs, Option.bind_some, he'])
  unfold dispatch at he
  cases hread : readCommand (nodeContext (cfgFor nodes a)) name args with
  | error f =>
    rw [hread] at he
    exact hbefore e he
  | ok r =>
    rw [hread] at he
    cases hlist : r.keyList with
    | none =>
      obtain ⟨e', he'⟩ := mem_of_global hlist he
      exact hbefore e' he'
    | some ks =>
      by_cases hk : k ∈ ks
      · exact hown r _ hread hs k (by rwa [Request.accesses, hlist])
      · have hout := (r.local_run (nodeContext (cfgFor nodes a)) env).outside s
          (k := k) (by rwa [Request.touched_of_keyList hlist])
        exact hbefore e (hout.symm.trans he)

/-- One step of the run. -/
theorem owned_step {depth : ℕ} {w' : World} {ev : ClientEvent} (hw : w.Shares nodes)
    (howned : w.Owned nodes) (hhome : AtHome nodes ev.node ev.frame)
    (hstep : clientStep nodes depth w ev = some w') : w'.Shares nodes ∧ w'.Owned nodes := by
  unfold clientStep at hstep
  split at hstep
  · next hev =>
    obtain rfl := Option.some.inj hstep
    have hserved := served_of_atHome hw howned hev.1 hev.2 hhome
    rcases serve_of_served (E := ev.env) depth hw hev.1 hserved with
      hsame | ⟨b, hb, name, args, s, hs, hown, heq⟩
    · rw [hsame]
      exact ⟨hw, howned⟩
    · rw [heq]
      refine ⟨⟨hw.sorted, fun c hc => ?_⟩, fun c hc k e he => ?_⟩
      · by_cases hcb : c = b
        · subst hcb
          exact ⟨_, by rw [World.setStore, Function.update_self, hs]; rfl⟩
        · obtain ⟨s', hs'⟩ := hw.up c hc
          exact ⟨s', by rw [World.setStore, Function.update_of_ne hcb, hs']⟩
      · by_cases hcb : c = b
        · subst hcb
          rw [World.entry, World.setStore, Function.update_self, hs] at he
          exact mem_of_dispatch hs howned hc hown he
        · rw [World.entry, World.setStore, Function.update_of_ne hcb] at he
          exact howned c hc k e he
  · cases hstep

end Nodes

/-- In a cluster with one node list, whose nodes start with empty stores, clients send data
commands to the nodes, each of which keeps its keys at home. In every state that is reached
every key is with the owner of its slot, and the next such command runs on keys of the node
that executes it : the node that it is sent to, or the one that it is proxied to, unless it
is refused. -/
theorem slots_owned (nodes : List String) (depth : ℕ) {w₀ w : World} (hw₀ : w₀.Shares nodes)
    (hempty : ∀ a ∈ nodes, ∀ k, w₀.entry a k = none)
    (hrun : Runs.Run (clientStep nodes depth) (fun _ ev => AtHome nodes ev.node ev.frame) w₀ w) :
    w.Owned nodes ∧ ∀ ev : ClientEvent, ev.node ∈ nodes → isData ev.frame = true →
      AtHome nodes ev.node ev.frame → Served nodes w ev.node ev.frame := by
  have hinv : w.Shares nodes ∧ w.Owned nodes := by
    refine hrun.invariant (I := fun w => w.Shares nodes ∧ w.Owned nodes) ?_ ⟨hw₀, ?_⟩
    · intro w ev w' hw hhome hstep
      exact owned_step hw.1 hw.2 hhome hstep
    · intro a ha k e he
      rw [hempty a ha k] at he
      cases he
  exact ⟨hinv.2, fun ev ha hdata hhome => served_of_atHome hinv.1 hinv.2 ha hdata hhome⟩

/-! ## Two nodes -/

/-- The nodes of a list, with empty stores. -/
def emptyNodes (nodes : List String) : World := fun a =>
  if a ∈ nodes then some ⟨∅, cfgFor nodes a⟩ else none

theorem shares_emptyNodes {nodes : List String} (h : nodes.Pairwise (· < ·)) :
    (emptyNodes nodes).Shares nodes :=
  ⟨h, fun _ ha => ⟨∅, if_pos ha⟩⟩

theorem entry_emptyNodes {nodes : List String} {a : String} (ha : a ∈ nodes) (k : String) :
    (emptyNodes nodes).entry a k = none := by
  rw [World.entry, emptyNodes, if_pos ha]
  exact ExtTreeMap.getElem?_empty

/-- `SUNIONSTORE` runs where it arrives : its destination is a key of the other node. -/
theorem sunionstore_away_from_home : ∃ w, Runs.Run (clientStep ["a:1", "b:1"] 0) (fun _ _ => True)
    (emptyNodes ["a:1", "b:1"]) w ∧ (w.entry "b:1" "k").isSome = true ∧
      ownerOf ["a:1", "b:1"] "k" = "a:1" := by
  refine ⟨_, .tail (.refl _) trivial (e := ⟨plainEnv, "b:1", .command ["SUNIONSTORE", "k", "s"]⟩)
    (if_pos ⟨by decide, by decide⟩), by decide, by decide⟩

theorem atHome_setK : AtHome ["a:1", "b:1"] "b:1" (.command ["SET", "k", "v"]) := by
  intro name args ks hargs hname hks b hb
  obtain rfl := Option.some.inj (Frame.array.inj hargs)
  obtain rfl : "SET" = name := by
    have hset : frameName (.command ["SET", "k", "v"]) = some "SET" := by decide
    exact Option.some.inj (hset.symm.trans hname)
  obtain rfl : [Utf8.toBytes "k"] = ks := Option.some.inj hks
  obtain rfl := List.mem_singleton.mp hb
  rw [ownerOf_lossy (by rw [Utf8.lossy_toBytes]), if_pos (by decide)]

/-- `SET` of a key of the other node is proxied. -/
theorem set_at_home : ∃ w, Runs.Run (clientStep ["a:1", "b:1"] 0)
    (fun _ ev => AtHome ["a:1", "b:1"] ev.node ev.frame) (emptyNodes ["a:1", "b:1"]) w ∧
      (w.entry "a:1" "k").isSome = true ∧ w.Owned ["a:1", "b:1"] := by
  have hrun : Runs.Run (clientStep ["a:1", "b:1"] 0)
      (fun _ ev => AtHome ["a:1", "b:1"] ev.node ev.frame) (emptyNodes ["a:1", "b:1"])
      (serve plainEnv 2 "b:1" (.command ["SET", "k", "v"]) (emptyNodes ["a:1", "b:1"])).2 :=
    .tail (.refl _) atHome_setK (e := ⟨plainEnv, "b:1", .command ["SET", "k", "v"]⟩)
      (if_pos ⟨by decide, by decide⟩)
  exact ⟨_, hrun, by decide, (slots_owned _ 0 (shares_emptyNodes (by decide))
    (fun _ ha => entry_emptyNodes ha) hrun).1⟩

end LoonyRedis
