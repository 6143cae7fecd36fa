import LoonyRedis.Lib.Runs
import LoonyRedis.Migration
import LoonyRedis.SlotTables

/-!
# Membership changes that overlap

The handlers of `CLUSTER MEET` and `FORGET`, and `auto_heal`, read the node list of their node,
compute the new list from it, and then tell the other nodes and commit the list on their own
node, one `await` after the other. A list that is committed replaces the one before it, whatever
has happened since the handler read it. So two handlers that overlap may each undo the change of
the other.

Here the calls of any number of handlers on any nodes are interleaved. `members` is what the
changes that have finished make of the first list. In every run in which a handler that starts
computes the same list as those in progress, every member that has been told holds this list once
the handlers have finished (`members_agree`).
-/

namespace LoonyRedis

/-! ## The system -/

/-- What a change does to a node list. -/
inductive Effect where
  | add (addr : String)
  | remove (addr : String)

/-- The node list after the change. -/
def Effect.on (nodes : List String) : Effect → List String
  | add addr => sortNodes (nodes ++ [addr])
  | remove addr => nodes.filter (· ≠ addr)

/-- What starts a handler that changes the node list. -/
inductive Change where
  | meet (addr : String)
  | forget (nodeIdArg : String)
  /-- `failed` are the addresses that the health table of the node holds as failed. -/
  | heal (addr : String) (failed : List String)

/-- What a handler does between two `await`s, as far as the node lists are concerned. -/
inductive NodeCall where
  | sync (peer : String)
  | drain (peer : String)
  | commit

/-- A handler in progress on the node `me`. -/
structure Handler where
  me : String
  effect : Effect
  newNodes : List String
  /-- What it has yet to do. -/
  calls : List NodeCall
  /-- The peers that it leaves out. -/
  skipped : List String := []

/-- The handler of a change on the node `me`, whose node list is `nodes`. None if it returns
at once. -/
def Change.plan (nodes : List String) (me : String) : Change → Option Handler
  | meet addr =>
    if addr ∈ nodes then none
    else
      let peers := nodes.filter (· ≠ me)
      some ⟨me, .add addr, (Effect.add addr).on nodes,
        .sync addr :: peers.map .sync ++ [.commit], []⟩
  | forget nodeIdArg =>
    match nodes.find? fun a => nodeId a = nodeIdArg ∨ a = nodeIdArg with
    | none => none
    | some leaving =>
      if leaving = me then none
      else
        let peers := nodes.filter fun a => a ≠ me ∧ a ≠ leaving
        some ⟨me, .remove leaving, (Effect.remove leaving).on nodes,
          .commit :: peers.map .sync ++ [.drain leaving], []⟩
  | heal addr failed =>
    let newNodes := (Effect.remove addr).on nodes
    if addr ∉ nodes ∨ newNodes = [] ∨ me ∉ newNodes then none
    else
      let peers := nodes.filter fun a => a ≠ me ∧ a ≠ addr
      some ⟨me, .remove addr, newNodes,
        .commit :: (peers.filter (· ∉ failed)).map .sync, peers.filter (· ∈ failed)⟩

/-- The node list that `me` commits, none for a panic or an error. -/
def committed (newNodes : List String) (me : String) : Option (List String) :=
  match ClusterConfig.new newNodes me with
  | .ok cfg => some cfg.nodes
  | .error _ => none

/-- The node list that `me` commits when it is sent `SYNC`. -/
def synced (newNodes : List String) (me : String) : Option (List String) :=
  let nodes := splitNodes (nodesList newNodes)
  if me ∈ nodes then committed nodes me else none

/-- The node lists, and the handlers under way. -/
structure MemberState where
  lists : String → List String
  handlers : List Handler
  /-- The first node list, with the addresses whose `MEET` has returned `OK` and without those
  that have been forgotten or healed away. -/
  members : List String
  /-- The peers that `auto_heal` has left out, and that have not been told since. -/
  leftOut : List String

/-- A handler starts, or goes on. -/
inductive MemberEvent where
  | start (me : String) (change : Change)
  /-- The next call of a handler, or its end. -/
  | run (i : ℕ)

namespace MemberState

/-- No handler is under way. -/
def init (lists : String → List String) (nodes : List String) : MemberState :=
  ⟨lists, [], nodes, []⟩

/-- The node `a` commits a list. -/
def told (s : MemberState) (a : String) (nodes : List String) : MemberState :=
  { s with lists := Function.update s.lists a nodes, leftOut := s.leftOut.filter (· ≠ a) }

variable (reach : String → Option String)

/-- A step of the system. `reach` says which node is found at an address, by the address it has
for itself; each call is answered. -/
def step (s : MemberState) : MemberEvent → Option MemberState
  | .start me change =>
    match change.plan (s.lists me) me with
    | none => some s
    | some h => some { s with
        handlers := s.handlers ++ [h]
        leftOut := s.leftOut ++ h.skipped }
  | .run i =>
    match s.handlers[i]? with
    | none => none
    | some h =>
      match h.calls with
      | [] => some { s with
          handlers := s.handlers.eraseIdx i
          members := h.effect.on s.members }
      | call :: calls =>
        let s' := { s with handlers := s.handlers.set i { h with calls := calls } }
        match call with
        | .drain _ => some s'
        | .sync peer =>
          match reach peer with
          | none => some s'
          | some a => some ((synced h.newNodes a).elim s' (s'.told a))
        | .commit =>
          match committed h.newNodes h.me with
          -- The handler ends here, and returns no `OK`.
          | none => some { s with handlers := s.handlers.eraseIdx i }
          | some nodes => some (s'.told h.me nodes)

end MemberState

/-! ## Node lists -/

/-- A list as the nodes of a cluster share it : sorted, and each node is found under its own
address. -/
structure NodeList (reach : String → Option String) (nodes : List String) : Prop where
  sorted : nodes.Pairwise (· < ·)
  valid : ∀ a ∈ nodes, ValidAddr a
  reached : ∀ a ∈ nodes, reach a = some a

/-- The address is one that a node list can hold, and it reaches the node itself. -/
def Effect.Sound (reach : String → Option String) : Effect → Prop
  | add addr => ValidAddr addr ∧ reach addr = some addr
  | remove _ => True

section Lists

variable {reach : String → Option String} {nodes : List String} {a : String}

theorem Effect.on_on (e : Effect) (nodes : List String) : e.on (e.on nodes) = e.on nodes := by
  cases e with
  | add addr =>
    refine sortNodes_congr fun a => ?_
    simp only [on, List.mem_append, mem_sortNodes, List.mem_singleton]
    tauto
  | remove addr => simp only [on, List.filter_filter, Bool.and_self]

theorem NodeList.on (h : NodeList reach nodes) {e : Effect} (he : e.Sound reach) :
    NodeList reach (e.on nodes) := by
  cases e with
  | add addr =>
    have hmem : ∀ a, a ∈ (Effect.add addr).on nodes ↔ a ∈ nodes ∨ a = addr := by
      intro a
      rw [Effect.on, mem_sortNodes, List.mem_append, List.mem_singleton]
    refine ⟨sorted_sortNodes _, fun a ha => ?_, fun a ha => ?_⟩
    · obtain hold | rfl := (hmem a).mp ha
      · exact h.valid a hold
      · exact he.1
    · obtain hold | rfl := (hmem a).mp ha
      · exact h.reached a hold
      · exact he.2
  | remove addr =>
    have hsub : ((Effect.remove addr).on nodes).Sublist nodes := List.filter_sublist
    exact ⟨h.sorted.sublist hsub, fun a ha => h.valid a (hsub.mem ha),
      fun a ha => h.reached a (hsub.mem ha)⟩

theorem committed_eq (h : nodes.Pairwise (· < ·)) (a : String) :
    committed nodes a = if a ∈ nodes ∧ nodes.length ≤ numSlots then some nodes else none := by
  rw [committed]
  split
  · next cfg hcfg =>
    obtain ⟨ha, hle, rfl⟩ := (new_eq_ok_iff h).mp hcfg
    rw [if_pos ⟨ha, hle⟩]
    rfl
  · next hcfg =>
    refine (if_neg fun hok => ?_).symm
    rw [(new_eq_ok_iff h).mpr ⟨hok.1, hok.2, rfl⟩] at hcfg
    cases hcfg

theorem NodeList.synced_eq (h : NodeList reach nodes) (hne : nodes ≠ []) (a : String) :
    synced nodes a = if a ∈ nodes ∧ nodes.length ≤ numSlots then some nodes else none := by
  simp only [synced, splitNodes_nodesList hne h.valid, committed_eq h.sorted]
  by_cases ha : a ∈ nodes <;> simp [ha]

end Lists

/-! ## Handlers -/

/-- The address of the node whose list a call of a handler on `me` replaces. -/
def NodeCall.target (me : String) : NodeCall → Option String
  | sync peer => some peer
  | drain _ => none
  | commit => some me

theorem NodeCall.filterMap_sync (me : String) (peers : List String) :
    (peers.map sync).filterMap (target me) = peers := by
  rw [List.filterMap_map]
  exact List.filterMap_some

namespace Handler

/-- With more nodes than slots the new list is committed nowhere. -/
def Fits (h : Handler) : Prop := h.newNodes.length ≤ numSlots

/-- The lengths are compared. -/
instance (h : Handler) : Decidable h.Fits := Nat.decLe _ _

/-- The nodes that the handler has yet to call. -/
def targets (h : Handler) : List String := h.calls.filterMap (NodeCall.target h.me)

end Handler

/-- What is known of a handler when it starts. -/
structure Handler.Started (nodes : List String) (me : String) (h : Handler) : Prop where
  newNodes : h.newNodes = h.effect.on nodes
  changed : h.newNodes ≠ nodes
  commits : .commit ∈ h.calls
  covered : ∀ a ∈ h.newNodes, a ∈ h.targets ∨ a ∈ h.skipped
  within : me ∈ nodes → ∀ a ∈ h.targets, a ∈ h.newNodes

/-- A handler that removes `gone`, and tells all other peers but those it skips. -/
theorem Handler.started_remove {nodes told skipped : List String} {me gone : String}
    {rest : List NodeCall} (hgone : gone ∈ nodes) (hme : gone ≠ me)
    (hrest : rest.filterMap (NodeCall.target me) = [])
    (hpeers : ∀ a, a ∈ told ∨ a ∈ skipped ↔ a ∈ nodes ∧ a ≠ me ∧ a ≠ gone) :
    Handler.Started nodes me ⟨me, .remove gone, (Effect.remove gone).on nodes,
      .commit :: told.map .sync ++ rest, skipped⟩ := by
  have hmem : ∀ a, a ∈ (Effect.remove gone).on nodes ↔ a ∈ nodes ∧ a ≠ gone := by
    intro a
    rw [Effect.on, List.mem_filter, decide_eq_true_eq]
  have htargets : (NodeCall.commit :: told.map NodeCall.sync ++ rest).filterMap
      (NodeCall.target me) = me :: told := by
    simp only [List.cons_append, List.filterMap_cons, List.filterMap_append,
      NodeCall.filterMap_sync, hrest, List.append_nil, NodeCall.target]
  refine ⟨rfl, fun heq => ?_, List.mem_cons_self, fun a ha => ?_, fun hin a ha => ?_⟩
  · have hnew : gone ∈ (Effect.remove gone).on nodes := by rwa [← heq] at hgone
    exact ((hmem gone).mp hnew).2 rfl
  · obtain ⟨hold, hne⟩ := (hmem a).mp ha
    rw [Handler.targets, htargets]
    by_cases ham : a = me
    · exact .inl (ham ▸ List.mem_cons_self)
    · exact ((hpeers a).mpr ⟨hold, ham, hne⟩).imp_left (List.mem_cons_of_mem _)
  · rw [Handler.targets, htargets] at ha
    refine (hmem a).mpr ?_
    obtain rfl | htold := List.mem_cons.mp ha
    · exact ⟨hin, hme.symm⟩
    · obtain ⟨hold, -, hne⟩ := (hpeers a).mp (.inl htold)
      exact ⟨hold, hne⟩

/-- Every change tells the nodes of its new list, except for those it skips. -/
theorem Change.started {c : Change} {nodes : List String} {me : String} {h : Handler}
    (hplan : c.plan nodes me = some h) : h.Started nodes me := by
  cases c with
  | meet addr =>
    rw [plan] at hplan
    split at hplan
    · cases hplan
    · next hnew =>
      obtain rfl := Option.some.inj hplan
      have hmem : ∀ a, a ∈ (Effect.add addr).on nodes ↔ a ∈ nodes ∨ a = addr := by
        intro a
        rw [Effect.on, mem_sortNodes, List.mem_append, List.mem_singleton]
      have htargets : (NodeCall.sync addr :: (nodes.filter (· ≠ me)).map NodeCall.sync ++
          [NodeCall.commit]).filterMap (NodeCall.target me) =
          addr :: nodes.filter (· ≠ me) ++ [me] := by
        simp only [List.cons_append, List.filterMap_cons, List.filterMap_append,
          NodeCall.filterMap_sync, List.filterMap_nil, NodeCall.target]
      refine ⟨rfl, fun heq => hnew (heq ▸ (hmem addr).mpr (.inr rfl)), by simp, fun a ha => ?_,
        fun hin a ha => ?_⟩
      · rw [Handler.targets, htargets]
        obtain hold | rfl := (hmem a).mp ha
        · by_cases ham : a = me <;> simp [ham, hold]
        · exact .inl List.mem_cons_self
      · rw [Handler.targets, htargets] at ha
        refine (hmem a).mpr ?_
        simp only [List.cons_append, List.mem_cons, List.mem_append, List.mem_filter,
          List.not_mem_nil, or_false] at ha
        obtain rfl | hold | rfl := ha
        · exact .inr rfl
        · exact .inl hold.1
        · exact .inl hin
  | forget arg =>
    rw [plan] at hplan
    split at hplan
    · cases hplan
    · next leaving hfind =>
      split at hplan
      · cases hplan
      · next hme =>
        obtain rfl := Option.some.inj hplan
        exact Handler.started_remove (List.mem_of_find?_eq_some hfind) hme rfl fun a => by simp
  | heal addr failed =>
    rw [plan] at hplan
    split at hplan
    · cases hplan
    · next hok =>
      obtain rfl := Option.some.inj hplan
      rw [not_or, not_or, not_not, not_not] at hok
      obtain ⟨hin, -, hme⟩ := hok
      have hne : addr ≠ me := by
        rintro rfl
        simp [Effect.on] at hme
      have hpeers : ∀ a, a ∈ (nodes.filter fun a => a ≠ me ∧ a ≠ addr).filter (· ∉ failed) ∨
          a ∈ (nodes.filter fun a => a ≠ me ∧ a ≠ addr).filter (· ∈ failed) ↔
          a ∈ nodes ∧ a ≠ me ∧ a ≠ addr := by
        intro a
        by_cases hf : a ∈ failed <;> simp [hf]
      have hstart := Handler.started_remove hin hne (List.filterMap_nil) hpeers
      rwa [List.append_nil] at hstart

/-- A new address can be sent in a list, and is the one that the node there has for itself. -/
def Change.Sound (reach : String → Option String) : Change → Prop
  | meet addr => ValidAddr addr ∧ reach addr = some addr
  | _ => True

theorem Change.effect_sound {reach : String → Option String} {c : Change} {nodes : List String}
    {me : String} {h : Handler} (hc : c.Sound reach) (hplan : c.plan nodes me = some h) :
    h.effect.Sound reach := by
  cases c with
  | meet addr =>
    rw [plan] at hplan
    split at hplan
    · cases hplan
    · obtain rfl := Option.some.inj hplan
      exact hc
  | forget arg =>
    rw [plan] at hplan
    split at hplan
    · cases hplan
    · split at hplan
      · cases hplan
      · obtain rfl := Option.some.inj hplan
        trivial
  | heal addr failed =>
    rw [plan] at hplan
    split at hplan
    · cases hplan
    · obtain rfl := Option.some.inj hplan
      trivial

/-! ## The invariant -/

namespace MemberState

variable (reach : String → Option String)

/-- A change that overlaps others starts on a member that has been told of the members, and its
new list is that of the handlers in progress. -/
def Clean (s : MemberState) : MemberEvent → Prop
  | .start me change => ∀ h ∈ change.plan (s.lists me) me,
      me ∈ s.members ∧ me ∉ s.leftOut ∧ change.Sound reach ∧
        (h.Fits → ∀ h' ∈ s.handlers, h'.Fits → h'.newNodes = h.newNodes)
  | .run _ => True

/-- A handler in progress has told each node of its new list, or will. -/
structure Progress (s : MemberState) (h : Handler) : Prop where
  list : NodeList reach h.newNodes
  effect : h.effect.on s.members = h.newNodes
  within : ∀ a ∈ h.targets, a ∈ h.newNodes
  told : ∀ a ∈ h.newNodes, a ∉ s.leftOut → s.lists a = h.newNodes ∨ a ∈ h.targets

/-- Each member that was not left out has the agreed list, or the one that a handler spreads. -/
structure Inv (s : MemberState) : Prop where
  list : NodeList reach s.members
  agree : ∀ a ∈ s.members, a ∉ s.leftOut → s.lists a = s.members ∨
    ∃ h ∈ s.handlers, h.Fits ∧ s.lists a = h.newNodes
  same : ∀ h ∈ s.handlers, ∀ h' ∈ s.handlers, h.Fits → h'.Fits → h.newNodes = h'.newNodes
  progress : ∀ h ∈ s.handlers, h.Fits → s.Progress reach h
  -- A handler whose list is too long fails before it ends.
  failing : ∀ h ∈ s.handlers, ¬ h.Fits → NodeList reach h.newNodes ∧ .commit ∈ h.calls

variable {reach} {s : MemberState} {h : Handler} {i : ℕ}

/-- The handlers after one of them has made a call. -/
def advance (s : MemberState) (i : ℕ) (h : Handler) (calls : List NodeCall) : MemberState :=
  { s with handlers := s.handlers.set i { h with calls := calls } }

section Advance

variable {call : NodeCall} {calls : List NodeCall}

/-- A handler that stays has its list still. -/
theorem exists_mem_advance (hi : s.handlers[i]? = some h) {g : Handler} (hg : g ∈ s.handlers) :
    ∃ g' ∈ (s.advance i h calls).handlers, g'.newNodes = g.newNodes := by
  obtain ⟨j, hj⟩ := List.mem_iff_getElem?.mp hg
  obtain ⟨hlt, -⟩ := List.getElem?_eq_some_iff.mp hi
  by_cases hij : i = j
  · subst hij
    obtain rfl : h = g := Option.some.inj (hi.symm.trans hj)
    refine ⟨{ h with calls := calls }, List.mem_iff_getElem?.mpr ⟨i, ?_⟩, rfl⟩
    exact List.getElem?_set_self hlt
  · refine ⟨g, List.mem_iff_getElem?.mpr ⟨j, ?_⟩, rfl⟩
    rw [advance, List.getElem?_set_ne hij, hj]

/-- And has no list that was not there. -/
theorem mem_of_mem_advance (hi : s.handlers[i]? = some h) {g : Handler}
    (hg : g ∈ (s.advance i h calls).handlers) : ∃ g' ∈ s.handlers, g'.newNodes = g.newNodes := by
  obtain hold | rfl := List.mem_or_eq_of_mem_set hg
  · exact ⟨g, hold, rfl⟩
  · exact ⟨h, List.mem_of_getElem? hi, rfl⟩

theorem Inv.same_advance (hs : s.Inv reach) (hi : s.handlers[i]? = some h) :
    ∀ g ∈ (s.advance i h calls).handlers, ∀ g' ∈ (s.advance i h calls).handlers,
      g.Fits → g'.Fits → g.newNodes = g'.newNodes := by
  intro g hg g' hg' hfit hfit'
  obtain ⟨g₀, hg₀, heq⟩ := mem_of_mem_advance hi hg
  obtain ⟨g₁, hg₁, heq'⟩ := mem_of_mem_advance hi hg'
  rw [Handler.Fits, ← heq] at hfit
  rw [Handler.Fits, ← heq'] at hfit'
  rw [← heq, ← heq', hs.same g₀ hg₀ g₁ hg₁ hfit hfit']

theorem Inv.failing_advance (hs : s.Inv reach) (hi : s.handlers[i]? = some h)
    (hcalls : h.calls = call :: calls) (hfail : ¬ h.Fits → call ≠ .commit) :
    ∀ g ∈ (s.advance i h calls).handlers, ¬ g.Fits →
      NodeList reach g.newNodes ∧ .commit ∈ g.calls := by
  intro g hg hfit
  obtain hold | rfl := List.mem_or_eq_of_mem_set hg
  · exact hs.failing g hold hfit
  · obtain ⟨hlist, hcommit⟩ := hs.failing h (List.mem_of_getElem? hi) hfit
    rw [hcalls, List.mem_cons] at hcommit
    exact ⟨hlist, hcommit.resolve_left fun heq => hfail hfit heq.symm⟩

theorem Inv.agree_advance (hs : s.Inv reach) (hi : s.handlers[i]? = some h) {a : String}
    (ha : a ∈ s.members) (hout : a ∉ s.leftOut) : s.lists a = s.members ∨
      ∃ g ∈ (s.advance i h calls).handlers, g.Fits ∧ s.lists a = g.newNodes := by
  obtain hall | ⟨g, hg, hfit, heq⟩ := hs.agree a ha hout
  · exact .inl hall
  · obtain ⟨g', hg', heq'⟩ := @exists_mem_advance _ _ _ calls hi g hg
    rw [Handler.Fits, ← heq'] at hfit
    exact .inr ⟨g', hg', hfit, heq.trans heq'.symm⟩

/-- A call that tells nobody. -/
theorem Inv.advance (hs : s.Inv reach) (hi : s.handlers[i]? = some h)
    (hcalls : h.calls = call :: calls) (hfit : h.Fits → call.target h.me = none)
    (hfail : ¬ h.Fits → call ≠ .commit) : (s.advance i h calls).Inv reach where
  list := hs.list
  agree a ha hout := hs.agree_advance hi ha hout
  same := hs.same_advance hi
  progress g hg hg' := by
    obtain hold | rfl := List.mem_or_eq_of_mem_set hg
    · obtain ⟨hlist, heffect, hwithin, htold⟩ := hs.progress g hold hg'
      exact ⟨hlist, heffect, hwithin, htold⟩
    · obtain ⟨hlist, heffect, hwithin, htold⟩ := hs.progress h (List.mem_of_getElem? hi) hg'
      have htargets : h.targets = Handler.targets { h with calls := calls } := by
        rw [Handler.targets, hcalls, List.filterMap_cons, hfit hg']
        rfl
      rw [htargets] at hwithin htold
      exact ⟨hlist, heffect, hwithin, htold⟩
  failing := hs.failing_advance hi hcalls hfail

/-- A call that tells a node of the new list. -/
theorem Inv.told {a : String} (hs : s.Inv reach) (hi : s.handlers[i]? = some h)
    (hcalls : h.calls = call :: calls) (hfit : h.Fits) (ha : call.target h.me = some a) :
    ((s.advance i h calls).told a h.newNodes).Inv reach := by
  have hout : ∀ {b}, b ≠ a → b ∉ s.leftOut.filter (· ≠ a) → b ∉ s.leftOut :=
    fun hb hmem hin => hmem (List.mem_filter.mpr ⟨hin, decide_eq_true hb⟩)
  have hself : ((s.advance i h calls).told a h.newNodes).lists a = h.newNodes :=
    Function.update_self ..
  have hother : ∀ {b}, b ≠ a → ((s.advance i h calls).told a h.newNodes).lists b = s.lists b :=
    fun hb => Function.update_of_ne hb ..
  refine ⟨hs.list, fun b hb hb' => ?_, hs.same_advance hi, fun g hg hg' => ?_,
    hs.failing_advance hi hcalls fun hnot => absurd hfit hnot⟩
  · by_cases hba : b = a
    · obtain ⟨g, hg, heq⟩ := @exists_mem_advance _ _ _ calls hi h (List.mem_of_getElem? hi)
      refine .inr ⟨g, hg, ?_, ?_⟩
      · rwa [Handler.Fits, heq]
      · rw [hba, hself, heq]
    · rw [hother hba]
      exact hs.agree_advance hi hb (hout hba hb')
  · -- For the handler itself, `a` is no longer among those it has to tell.
    obtain hold | rfl := List.mem_or_eq_of_mem_set hg
    · obtain ⟨hlist, heffect, hwithin, htold⟩ := hs.progress g hold hg'
      refine ⟨hlist, heffect, hwithin, fun b hb hb' => ?_⟩
      by_cases hba : b = a
      · rw [hba, hself]
        exact .inl (hs.same h (List.mem_of_getElem? hi) g hold hfit hg')
      · rw [hother hba]
        exact htold b hb (hout hba hb')
    · obtain ⟨hlist, heffect, hwithin, htold⟩ := hs.progress h (List.mem_of_getElem? hi) hg'
      have htargets : h.targets = a :: Handler.targets { h with calls := calls } := by
        rw [Handler.targets, hcalls, List.filterMap_cons, ha]
        rfl
      rw [htargets] at hwithin htold
      refine ⟨hlist, heffect, fun b hb => hwithin b (List.mem_cons_of_mem _ hb),
        fun b hb hb' => ?_⟩
      by_cases hba : b = a
      · rw [hba, hself]
        exact .inl rfl
      · rw [hother hba]
        exact (htold b hb (hout hba hb')).imp_right fun hin =>
          (List.mem_cons.mp hin).resolve_left hba

end Advance

/-- A handler that fails changes nothing. -/
theorem Inv.drop (hs : s.Inv reach) (hi : s.handlers[i]? = some h) (hfit : ¬ h.Fits) :
    Inv reach { s with handlers := s.handlers.eraseIdx i } := by
  have hmem : ∀ {g}, g ∈ s.handlers.eraseIdx i → g ∈ s.handlers := List.mem_of_mem_eraseIdx
  refine ⟨hs.list, fun a ha hout => ?_, fun g hg g' hg' => hs.same g (hmem hg) g' (hmem hg'),
    fun g hg hg' => ?_, fun g hg => hs.failing g (hmem hg)⟩
  · refine (hs.agree a ha hout).imp_right fun ⟨g, hg, hg', heq⟩ => ⟨g, ?_, hg', heq⟩
    obtain ⟨j, hj⟩ := List.mem_iff_getElem?.mp hg
    refine List.mem_eraseIdx_iff_getElem?.mpr ⟨j, fun hji => ?_, hj⟩
    rw [hji, hi] at hj
    exact hfit (Option.some.inj hj ▸ hg')
  · obtain ⟨hlist, heffect, hwithin, htold⟩ := hs.progress g (hmem hg) hg'
    exact ⟨hlist, heffect, hwithin, htold⟩

/-- A handler that ends has told all nodes of its list, and this is the list of members. -/
theorem Inv.finish (hs : s.Inv reach) (hi : s.handlers[i]? = some h) (hcalls : h.calls = []) :
    Inv reach { s with
      handlers := s.handlers.eraseIdx i
      members := h.effect.on s.members } := by
  have hmem : ∀ {g}, g ∈ s.handlers.eraseIdx i → g ∈ s.handlers := List.mem_of_mem_eraseIdx
  have hin := List.mem_of_getElem? hi
  have hfit : h.Fits := by
    by_contra hnot
    obtain ⟨-, hcommit⟩ := hs.failing h hin hnot
    rw [hcalls] at hcommit
    exact absurd hcommit List.not_mem_nil
  obtain ⟨hlist, heffect, -, htold⟩ := hs.progress h hin hfit
  have hdone : h.targets = [] := by
    rw [Handler.targets, hcalls, List.filterMap_nil]
  rw [heffect]
  refine ⟨hlist, fun a ha hout => ?_, fun g hg g' hg' => hs.same g (hmem hg) g' (hmem hg'),
    fun g hg hg' => ?_, fun g hg => hs.failing g (hmem hg)⟩
  · refine .inl ((htold a ha hout).resolve_right fun hin => ?_)
    rw [hdone] at hin
    exact absurd hin List.not_mem_nil
  · obtain ⟨hglist, hgeffect, hgwithin, hgtold⟩ := hs.progress g (hmem hg) hg'
    refine ⟨hglist, ?_, hgwithin, hgtold⟩
    -- The other handlers have the same effect, which is already there.
    calc g.effect.on h.newNodes = g.effect.on (g.effect.on s.members) := by
          rw [hgeffect, hs.same h hin g (hmem hg) hfit hg']
      _ = g.newNodes := by rw [Effect.on_on, hgeffect]

/-- A handler that starts on a member. -/
theorem Inv.start (hs : s.Inv reach) {me : String} {c : Change}
    (hplan : c.plan (s.lists me) me = some h) (hclean : s.Clean reach (.start me c)) :
    Inv reach { s with
      handlers := s.handlers ++ [h]
      leftOut := s.leftOut ++ h.skipped } := by
  obtain ⟨hme, hmeout, hsound, hsame⟩ := hclean h hplan
  obtain ⟨hnew, hchanged, hcommits, hcovered, hwithin⟩ := Change.started hplan
  have hout : ∀ {b}, b ∉ s.leftOut ++ h.skipped → b ∉ s.leftOut ∧ b ∉ h.skipped := by
    intro b hb
    rwa [List.mem_append, not_or] at hb
  have hlist : NodeList reach h.newNodes := by
    rw [hnew]
    refine NodeList.on ?_ (Change.effect_sound hsound hplan)
    obtain heq | ⟨g, hg, hg', heq⟩ := hs.agree me hme hmeout
    · rw [heq]
      exact hs.list
    · rw [heq]
      exact (hs.progress g hg hg').list
  have hprogress : h.Fits → s.lists me = s.members := by
    intro hfit
    obtain heq | ⟨g, hg, hg', heq⟩ := hs.agree me hme hmeout
    · exact heq
    · -- The list of a handler in progress is changed, and so not the new list.
      exact absurd ((heq.trans (hsame hfit g hg hg')).symm) hchanged
  have hmem : ∀ {g}, g ∈ s.handlers ++ [h] → g ∈ s.handlers ∨ g = h := by
    intro g hg
    rwa [List.mem_append, List.mem_singleton] at hg
  refine ⟨hs.list, fun a ha ha' => ?_, fun g hg g' hg' hfit hfit' => ?_, fun g hg hfit => ?_,
    fun g hg hfit => ?_⟩
  · exact (hs.agree a ha (hout ha').1).imp_right fun ⟨g, hg, hfit⟩ =>
      ⟨g, List.mem_append_left _ hg, hfit⟩
  · obtain hold | rfl := hmem hg
    · obtain hold' | rfl := hmem hg'
      · exact hs.same g hold g' hold' hfit hfit'
      · exact hsame hfit' g hold hfit
    · obtain hold' | rfl := hmem hg'
      · exact (hsame hfit g' hold' hfit').symm
      · rfl
  · obtain hg | rfl := hmem hg
    · obtain ⟨hglist, hgeffect, hgwithin, hgtold⟩ := hs.progress g hg hfit
      exact ⟨hglist, hgeffect, hgwithin, fun b hb hb' => hgtold b hb (hout hb').1⟩
    · have heq := hprogress hfit
      rw [heq] at hnew hwithin
      exact ⟨hlist, hnew.symm, hwithin hme, fun b hb hb' =>
        .inr ((hcovered b hb).resolve_right (hout hb').2)⟩
  · obtain hg | rfl := hmem hg
    · exact hs.failing g hg hfit
    · exact ⟨hlist, hcommits⟩

/-- A call of a handler whose list can be committed. -/
theorem Inv.call_of_fits (hs : s.Inv reach) {t : MemberState} {call : NodeCall}
    {calls : List NodeCall} (hi : s.handlers[i]? = some h) (hcalls : h.calls = call :: calls)
    (hfit : h.Fits) (hstep : s.step reach (.run i) = some t) : t.Inv reach := by
  have hprogress := hs.progress h (List.mem_of_getElem? hi) hfit
  have hwithin : ∀ a, call.target h.me = some a → a ∈ h.newNodes := by
    intro a ha
    refine hprogress.within a (List.mem_filterMap.mpr ⟨call, ?_, ha⟩)
    rw [hcalls]
    exact List.mem_cons_self
  cases call with
  | drain peer =>
    simp only [MemberState.step, hi, hcalls] at hstep
    obtain rfl := Option.some.inj hstep
    exact hs.advance hi hcalls (fun _ => rfl) fun hnot => absurd hfit hnot
  | sync peer =>
    have hpeer := hwithin peer rfl
    simp only [MemberState.step, hi, hcalls, hprogress.list.reached peer hpeer] at hstep
    rw [hprogress.list.synced_eq (List.ne_nil_of_mem hpeer), if_pos ⟨hpeer, hfit⟩] at hstep
    obtain rfl := Option.some.inj hstep
    exact hs.told hi hcalls hfit rfl
  | commit =>
    simp only [MemberState.step, hi, hcalls] at hstep
    rw [committed_eq hprogress.list.sorted, if_pos ⟨hwithin h.me rfl, hfit⟩] at hstep
    obtain rfl := Option.some.inj hstep
    exact hs.told hi hcalls hfit rfl

/-- The other handlers tell nobody. -/
theorem Inv.call_of_not_fits (hs : s.Inv reach) {t : MemberState} {call : NodeCall}
    {calls : List NodeCall} (hi : s.handlers[i]? = some h) (hcalls : h.calls = call :: calls)
    (hfit : ¬ h.Fits) (hstep : s.step reach (.run i) = some t) : t.Inv reach := by
  obtain ⟨hlist, -⟩ := hs.failing h (List.mem_of_getElem? hi) hfit
  have hne : h.newNodes ≠ [] := by
    intro hnil
    refine hfit ?_
    rw [Handler.Fits, hnil]
    exact Nat.zero_le _
  have hadvance : call ≠ .commit → (s.advance i h calls).Inv reach := fun hcall =>
    hs.advance hi hcalls (fun hfit' => absurd hfit' hfit) fun _ => hcall
  cases call with
  | drain peer =>
    simp only [MemberState.step, hi, hcalls] at hstep
    obtain rfl := Option.some.inj hstep
    exact hadvance nofun
  | sync peer =>
    simp only [MemberState.step, hi, hcalls] at hstep
    split at hstep
    · obtain rfl := Option.some.inj hstep
      exact hadvance nofun
    · rw [hlist.synced_eq hne, if_neg fun hok => hfit hok.2] at hstep
      obtain rfl := Option.some.inj hstep
      exact hadvance nofun
  | commit =>
    simp only [MemberState.step, hi, hcalls] at hstep
    rw [committed_eq hlist.sorted, if_neg fun hok => hfit hok.2] at hstep
    obtain rfl := Option.some.inj hstep
    exact hs.drop hi hfit

theorem Inv.step (hs : s.Inv reach) {e : MemberEvent} {t : MemberState} (hclean : s.Clean reach e)
    (hstep : s.step reach e = some t) : t.Inv reach := by
  cases e with
  | start me c =>
    rw [MemberState.step] at hstep
    split at hstep
    · obtain rfl := Option.some.inj hstep
      exact hs
    · next h hplan =>
      obtain rfl := Option.some.inj hstep
      exact hs.start hplan hclean
  | run i =>
    cases hi : s.handlers[i]? with
    | none => simp [MemberState.step, hi] at hstep
    | some h =>
      cases hcalls : h.calls with
      | nil =>
        simp only [MemberState.step, hi, hcalls] at hstep
        obtain rfl := Option.some.inj hstep
        exact hs.finish hi hcalls
      | cons call calls =>
        by_cases hfit : h.Fits
        · exact hs.call_of_fits hi hcalls hfit hstep
        · exact hs.call_of_not_fits hi hcalls hfit hstep

/-- In a run whose changes overlap only if they lead to the same list, the members that have
been told hold the list of all members once the handlers have finished. -/
theorem members_agree {lists : String → List String} {nodes : List String}
    (hnodes : NodeList reach nodes) (hlists : ∀ a ∈ nodes, lists a = nodes)
    (hrun : Runs.Run (step reach) (Clean reach) (init lists nodes) s) (hdone : s.handlers = []) :
    ∀ a ∈ s.members, a ∉ s.leftOut → s.lists a = s.members := by
  have hinit : (init lists nodes).Inv reach :=
    ⟨hnodes, fun a ha _ => .inl (hlists a ha), fun _ hg => absurd hg List.not_mem_nil,
      fun _ hg => absurd hg List.not_mem_nil, fun _ hg => absurd hg List.not_mem_nil⟩
  have hs : s.Inv reach := hrun.invariant (fun _ _ _ hs hclean hstep => hs.step hclean hstep) hinit
  intro a ha hout
  refine (hs.agree a ha hout).resolve_right fun ⟨h, hh, _⟩ => ?_
  rw [hdone] at hh
  exact absurd hh List.not_mem_nil

end MemberState

/-! ## Two nodes -/

section Two

/-- Every node has its own address. -/
def everywhere : String → Option String := some

/-- Two nodes that agree. -/
def pairAtStart : MemberState := .init (fun _ => ["a:1", "b:1"]) ["a:1", "b:1"]

/-- The nodes `a:1` and `b:1` each meet a new node. Both have read the list of the two before
either tells the other. -/
theorem concurrent_meets_diverge : ∃ s : MemberState,
    Runs.Run (MemberState.step everywhere) (fun _ _ => True) pairAtStart s ∧ s.handlers = [] ∧
      s.members = ["a:1", "b:1", "c:1", "d:1"] ∧ s.leftOut = [] ∧
      s.lists "a:1" = ["a:1", "b:1", "d:1"] ∧ s.lists "c:1" = ["a:1", "b:1", "c:1"] := by
  have hrun : (Runs.exec (MemberState.step everywhere) (fun _ _ => True) pairAtStart
      [.start "a:1" (.meet "c:1"), .start "b:1" (.meet "d:1"), .run 0, .run 0, .run 0, .run 0,
        .run 0, .run 0, .run 0, .run 0]).any (fun s => s.handlers.isEmpty &&
          s.members = ["a:1", "b:1", "c:1", "d:1"] && s.leftOut.isEmpty &&
          s.lists "a:1" = ["a:1", "b:1", "d:1"] && s.lists "c:1" = ["a:1", "b:1", "c:1"]) =
      true := by
    decide +kernel
  obtain ⟨s, hs, hp⟩ := Runs.exists_run_of_exec hrun
  simp only [Bool.and_eq_true, List.isEmpty_iff, decide_eq_true_eq] at hp
  obtain ⟨⟨⟨⟨hhandlers, hmembers⟩, hout⟩, ha⟩, hc⟩ := hp
  exact ⟨s, hs, hhandlers, hmembers, hout, ha, hc⟩

/-- Its three conditions are decided one by one. -/
instance (a : String) : Decidable (ValidAddr a) :=
  decidable_of_iff (a ≠ "" ∧ ',' ∉ a.toList ∧ Text.trim a.toList = a.toList)
    ⟨fun h => ⟨h.1, h.2.1, h.2.2⟩, fun h => ⟨h.1, h.2, h.3⟩⟩

/-- Only a `MEET` has a condition. -/
instance : ∀ c : Change, Decidable (c.Sound everywhere)
  | .meet addr => inferInstanceAs (Decidable (ValidAddr addr ∧ everywhere addr = some addr))
  | .forget _ | .heal _ _ => .isTrue trivial

/-- Only the start of a handler has a condition. -/
instance (s : MemberState) : ∀ e : MemberEvent, Decidable (s.Clean everywhere e)
  | .start me change => inferInstanceAs (Decidable (∀ h ∈ change.plan (s.lists me) me,
      me ∈ s.members ∧ me ∉ s.leftOut ∧ change.Sound everywhere ∧
        (h.Fits → ∀ h' ∈ s.handlers, h'.Fits → h'.newNodes = h.newNodes)))
  | .run _ => .isTrue trivial

/-- Three node addresses. -/
def threeMembers : List String := ["a:1", "b:1", "c:1"]

/-- Both nodes remove a third one at the same time, and one of them then meets a new node. -/
theorem members_agree_after_heals : ∃ s : MemberState,
    s.handlers = [] ∧ s.members = ["a:1", "b:1", "d:1"] ∧ s.leftOut = [] ∧
      ∀ a ∈ s.members, a ∉ s.leftOut → s.lists a = s.members := by
  have hrun : (Runs.exec (MemberState.step everywhere) (MemberState.Clean everywhere)
      (.init (fun _ => threeMembers) threeMembers)
      [.start "a:1" (.heal "c:1" ["c:1"]), .start "b:1" (.heal "c:1" ["c:1"]), .run 0, .run 1,
        .run 0, .run 1, .run 0, .run 0, .start "b:1" (.meet "d:1"), .run 0, .run 0, .run 0,
        .run 0]).any (fun s => s.handlers.isEmpty && s.members = ["a:1", "b:1", "d:1"] &&
          s.leftOut.isEmpty) = true := by
    decide +kernel
  obtain ⟨s, hs, hp⟩ := Runs.exists_run_of_exec hrun
  simp only [Bool.and_eq_true, List.isEmpty_iff, decide_eq_true_eq] at hp
  obtain ⟨⟨hhandlers, hmembers⟩, hout⟩ := hp
  have hnodes : NodeList everywhere threeMembers :=
    ⟨by decide +kernel, by decide +kernel, fun _ _ => rfl⟩
  exact ⟨s, hhandlers, hmembers, hout,
    MemberState.members_agree hnodes (fun _ _ => rfl) hs hhandlers⟩

end Two

end LoonyRedis
