import LoonyRedis.Migration
import LoonyRedis.Transfer

/-!
# Migrations that fail

The handlers of `SYNC`, `MEET` and `DRAIN` remove the keys of a target from the store before they
push them, and do not look at the result of the push. So a key is lost if its command does not
reach the target (the connection is refused, it breaks or it times out), or if the target answers
it with an error. `MIGRATE` removes a key only after the target has answered `OK`.

What the network and the target do is an input here (`overLink`) : which commands reach the
target and are executed. `migration_keeps_iff` says that nothing is lost exactly if, for every
key that is moved, the command is executed and makes the value of the target the one that was
sent, or the target had this value before.
-/

namespace LoonyRedis

open Std Store

/-- Calls of which only some get through : one that does not is answered with an error, or not
at all, and changes nothing. -/
def overLink (executed : String → Frame → Bool) (rpc : Rpc) : Rpc := fun target frame w =>
  if executed target frame then rpc target frame w else (.error "ERR refused", w)

/-- The node `a` holds the key with contents `c`. -/
def World.Holds (w : World) (a k : String) (c : Content) : Prop :=
  ∃ n, w a = some n ∧ n.store.contents k = some c

/-- The targets of a migration : they are other nodes, each slot goes to one of them, and the
target knows that it owns it. -/
structure Targets (me : String) (slotsOf : String → List ℕ) (targets : List String) (w : World) :
    Prop where
  others : me ∉ targets
  nodup : targets.Nodup
  one : ∀ t ∈ targets, ∀ t' ∈ targets, ∀ slot ∈ slotsOf t, slot ∈ slotsOf t' → t = t'
  owned : ∀ t ∈ targets, ∀ n, w t = some n → ∀ slot ∈ slotsOf t, n.config.isMine slot = true

/-- The targets of `SYNC`, `MEET` and `DRAIN` are other nodes, and each slot goes to its owner
under the new configuration. -/
theorem targets_of_handlers (env : Env) (cfg new : ClusterConfig) (w : World)
    {slotsOf : String → List ℕ}
    (hslots : slotsOf = cfg.slotsToSend new ∨ slotsOf = cfg.slotsToDrain new)
    (howned : ∀ t n, w t = some n → ∀ slot ∈ slotsOf t, n.config.isMine slot = true) :
    Targets cfg.myAddr slotsOf (env.keyOrder (cfg.sendTargets new)) w where
  others h := by
    rw [(env.keyOrder_perm _).mem_iff, ClusterConfig.sendTargets, List.mem_dedup] at h
    simpa using (List.mem_filter.mp h).2
  nodup := (env.keyOrder_perm _).nodup_iff.mpr (List.nodup_dedup _)
  one t _ t' _ slot ht ht' := by
    have howner {t : String} (h : slot ∈ slotsOf t) : new.nodeForSlot slot = t := by
      rcases hslots with rfl | rfl
      · exact (of_decide_eq_true (List.mem_filter.mp h).2).1
      · exact of_decide_eq_true (List.mem_filter.mp h).2
    rw [← howner ht, howner ht']
  owned t _ n hn := howned t n hn

/-- What a key holds at a target that held `old` there, after `v` was sent. -/
def received (executed : Bool) (env : Env) (k : String) (v : Value) (old : Option Entry) :
    Option Entry :=
  match snapshotEntry env k v, executed with
  | some x, true => some ⟨x.valueOver (old.map Entry.value), x.expiryOver old⟩
  | _, _ => old

/-! ## One command -/

namespace World

variable {w : World} {a b : String} {n : ClusterNode} {s s' : Store}

theorem setStore_self (h : w a = some n) : w.setStore a n.store = w := by
  rw [setStore, h, Option.map_some, ← h, Function.update_eq_self]

theorem setStore_setStore : (w.setStore a s).setStore a s' = w.setStore a s' := by
  simp only [setStore, Function.update_self, Function.update_idem, Option.map_map]
  rfl

theorem setStore_apply (h : w a = some n) : w.setStore a s a = some { n with store := s } := by
  rw [setStore, Function.update_self, h, Option.map_some]

theorem setStore_of_ne (h : b ≠ a) : w.setStore a s b = w b := by
  rw [setStore, Function.update_of_ne h]

end World

theorem buildValueFrame_shape (env : Env) (k : String) (v : Value) (pttl : ℤ) : ∃ name rest,
    name ∈ ["SET", "RPUSH", "HSET", "SADD", "ZADD"] ∧
      buildValueFrame env k v pttl = .array (some (.bulkStr name :: .bulkStr k :: rest)) := by
  cases v with
  | string b => exact ⟨"SET", _, by simp, rfl⟩
  | list l => exact ⟨"RPUSH", _, by simp, rfl⟩
  | hash h => exact ⟨"HSET", _, by simp, rfl⟩
  | set t => exact ⟨"SADD", _, by simp, rfl⟩
  | zset z => exact ⟨"ZADD", _, by simp, rfl⟩

section Link

variable {E : ClusterEnv} {env : Env} {executed : String → Frame → Bool} {w : World} {t : String}
  {n : ClusterNode}

/-- A value that is sent to the owner of its key. -/
theorem overLink_value (hn : w t = some n) {k : String}
    (hmine : n.config.isMine (slotForKey (Utf8.toBytes k)) = true) (v : Value) (depth : ℕ) :
    ∃ st : Store, (overLink executed (serve E (depth + 1)) t (buildValueFrame env k v (-1)) w).2 =
        w.setStore t st ∧
      ∀ k', st[k']? = if k = k' then
          received (executed t (buildValueFrame env k v (-1))) env k v n.store[k]?
        else n.store[k']? := by
  unfold overLink received
  cases executed t (buildValueFrame env k v (-1)) with
  | false =>
    refine ⟨n.store, by simp [World.setStore_self hn], fun k' => ?_⟩
    cases snapshotEntry env k v <;> split <;> simp_all
  | true =>
    have hserves : (nodeContext n.config).ServesKey k := by
      refine .inr ⟨rfl, rfl, fun cfg hcfg => ?_⟩
      rw [← Option.some.inj hcfg]
      exact hmine
    obtain ⟨name, rest, hname, hframe⟩ := buildValueFrame_shape env k v (-1)
    have hserve : (serve E (depth + 1) t (buildValueFrame env k v (-1)) w).2 = w.setStore t
        (execute (nodeContext n.config) Deployment.nowhere (E.env t)
          (buildValueFrame env k v (-1)) n.store).store := by
      rw [hframe]
      simp only [serve, hn, execute, Deployment.route_of_servesKey hserves hname]
    rw [execute_value hserves] at hserve
    refine ⟨_, by simpa using hserve, fun k' => ?_⟩
    cases snapshotEntry env k v with
    | none =>
      simp only
      split
      · next heq => rw [heq]
      · rfl
    | some x => rw [FinMap.getElem?_insert]

/-- The keys `ks` are pushed to a node that is up. -/
theorem pushEntriesTo_overLink {entry : String → Entry} (depth : ℕ) :
    ∀ {ks : List String} {w : World} {n : ClusterNode}, w t = some n → ks.Nodup →
      (∀ k ∈ ks, n.config.isMine (slotForKey (Utf8.toBytes k)) = true) →
      ∃ st : Store, pushEntriesTo (overLink executed (serve E (depth + 1))) env t
          (ks.map fun k => (k, (entry k).value, -1)) w = w.setStore t st ∧
        ∀ k, st[k]? = if k ∈ ks then
            received (executed t (buildValueFrame env k (entry k).value (-1))) env k (entry k).value
              n.store[k]?
          else n.store[k]?
  | [], w, n, hn, _, _ => ⟨n.store, (World.setStore_self hn).symm, fun k => by simp⟩
  | k :: ks, w, n, hn, hnd, hmine => by
    rw [List.nodup_cons] at hnd
    rw [List.forall_mem_cons] at hmine
    obtain ⟨st, hstep, hst⟩ := @overLink_value E env executed w t n hn k hmine.1 (entry k).value depth
    have hn' := World.setStore_apply hn (s := st)
    obtain ⟨st', hrest, hst'⟩ := pushEntriesTo_overLink depth hn' hnd.2 hmine.2
    refine ⟨st', ?_, fun k' => ?_⟩
    · rw [List.map_cons, pushEntriesTo, List.foldl_cons, hstep]
      exact hrest.trans World.setStore_setStore
    · rw [hst', hst]
      by_cases heq : k = k'
      · subst heq
        simp [hnd.1]
      · simp [heq, Ne.symm heq]

/-- Nothing reaches a node that is down. -/
theorem pushEntriesTo_of_none (hn : w t = none) (depth : ℕ) (es : List MigrateEntry) :
    pushEntriesTo (overLink executed (serve E (depth + 1))) env t es w = w := by
  induction es with
  | nil => rfl
  | cons m es ih =>
    have hstep : (overLink executed (serve E (depth + 1)) t
        (buildValueFrame env m.1 m.2.1 m.2.2) w).2 = w := by
      simp only [overLink, serve, hn]
      split <;> rfl
    rw [pushEntriesTo, List.foldl_cons, hstep]
    exact ih

end Link

/-! ## The loop over the targets -/

section Loop

variable {E : ClusterEnv} {env : Env} {executed : String → Frame → Bool} {me : String}
  {slotsOf : String → List ℕ}

/-- What the node `t` has at `k` after `me`, which had `e` there, has handed over its slots. -/
def handed (executed : String → Frame → Bool) (env : Env) (slotsOf : String → List ℕ)
    (targets : List String) (t k : String) (e old : Option Entry) : Option Entry :=
  if t ∈ targets ∧ slotForKey (Utf8.toBytes k) ∈ slotsOf t then
    match e with
    | none => old
    | some e => received (executed t (buildValueFrame env k e.value (-1))) env k e.value old
  else old

/-- One target : its slots are drained and pushed. -/
theorem handTarget_at {t : String} {w : World} {s : Store} {cfg : ClusterConfig} (ht : t ≠ me)
    (hme : w me = some ⟨s, cfg⟩) (hexp : s.NoExpiry)
    (howned : ∀ n, w t = some n → ∀ slot ∈ slotsOf t, n.config.isMine slot = true) (depth : ℕ) :
    let w' := pushEntriesTo (overLink executed (serve E (depth + 1))) env t
      (drainSlots env (slotsOf t) s).1 (w.setStore me (drainSlots env (slotsOf t) s).2)
    (∃ s' : Store, w' me = some ⟨s', cfg⟩ ∧
      ∀ k, s'[k]? = if slotForKey (Utf8.toBytes k) ∈ slotsOf t then none else s[k]?) ∧
    (∀ a, a ≠ me → a ≠ t → w' a = w a) ∧ (w t = none → w' t = none) ∧
    ∀ n, w t = some n → ∃ st : Store, w' t = some ⟨st, n.config⟩ ∧
      ∀ k, st[k]? = handed executed env slotsOf [t] t k s[k]? n.store[k]? := by
  intro w'
  obtain ⟨ks, entry, hnd, hmem, hentry, hentries, hrest⟩ := drainSlots_eq env (slotsOf t) hexp
  have hdrained (k : String) : (drainSlots env (slotsOf t) s).2[k]? =
      if slotForKey (Utf8.toBytes k) ∈ slotsOf t then none else s[k]? := by
    rw [hrest]
    by_cases hk : k ∈ s
    · simp [hmem, hk]
    · rw [ExtTreeMap.getElem?_eq_none hk, ite_self, ite_self]
  have hmeAt := World.setStore_apply (s := (drainSlots env (slotsOf t) s).2) hme
  cases htw : w t with
  | none =>
    have hw' : w' = w.setStore me (drainSlots env (slotsOf t) s).2 :=
      pushEntriesTo_of_none (by rw [World.setStore_of_ne ht, htw]) depth _
    rw [hw']
    refine ⟨⟨_, hmeAt, hdrained⟩, fun a hame _ => World.setStore_of_ne hame,
      fun _ => by rw [World.setStore_of_ne ht, htw], fun n hn => nomatch hn⟩
  | some n =>
    have hn : w.setStore me (drainSlots env (slotsOf t) s).2 t = some n := by
      rw [World.setStore_of_ne ht, htw]
    obtain ⟨st, hpush, hst⟩ := @pushEntriesTo_overLink E env executed t entry depth ks _ n hn hnd
      fun k hk => howned n htw _ ((hmem k).mp hk).2
    have hw' : w' = (w.setStore me (drainSlots env (slotsOf t) s).2).setStore t st := by
      rw [← hpush, ← hentries]
    rw [hw']
    refine ⟨⟨_, by rw [World.setStore_of_ne ht.symm]; exact hmeAt, hdrained⟩,
      fun a hame hat => by rw [World.setStore_of_ne hat, World.setStore_of_ne hame],
      (fun hnone => nomatch hnone), fun n' hn' => ?_⟩
    obtain rfl := Option.some.inj hn'
    refine ⟨st, World.setStore_apply hn, fun k => ?_⟩
    rw [hst]
    unfold handed
    by_cases hk : k ∈ s
    · by_cases hslot : slotForKey (Utf8.toBytes k) ∈ slotsOf t
      · have hks := (hmem k).mpr ⟨hk, hslot⟩
        simp [hks, hslot, hentry k hks]
      · simp [hmem, hslot]
    · simp [hmem, hk]

/-- All targets. -/
theorem handOver_at (depth : ℕ) : ∀ {targets : List String} {w : World} {s : Store}
    {cfg : ClusterConfig}, w me = some ⟨s, cfg⟩ → s.NoExpiry → Targets me slotsOf targets w →
    let w' := (handOver (overLink executed (serve E (depth + 1))) env me slotsOf targets w).2
    (∃ s' : Store, w' me = some ⟨s', cfg⟩ ∧ ∀ k, s'[k]? =
      if ∃ t ∈ targets, slotForKey (Utf8.toBytes k) ∈ slotsOf t then none else s[k]?) ∧
    ∀ t, t ≠ me → (w t = none → w' t = none) ∧
      ∀ n, w t = some n → ∃ st : Store, w' t = some ⟨st, n.config⟩ ∧
        ∀ k, st[k]? = handed executed env slotsOf targets t k s[k]? n.store[k]?
  | [], w, s, cfg, hme, _, _ => by
    refine ⟨⟨s, hme, fun k => by simp⟩, fun t _ => ⟨id, fun n hn => ⟨n.store, hn, fun k => ?_⟩⟩⟩
    simp [handed]
  | t :: ts, w, s, cfg, hme, hexp, htargets => by
    have htme : t ≠ me := fun h => htargets.others (h ▸ List.mem_cons_self)
    have hts : t ∉ ts := (List.nodup_cons.mp htargets.nodup).1
    obtain ⟨⟨s₁, hme₁, hs₁⟩, hother, hdown, hup⟩ := @handTarget_at E env executed me slotsOf t w s
      cfg htme hme hexp (htargets.owned t List.mem_cons_self) depth
    have hstep : (handOver (overLink executed (serve E (depth + 1))) env me slotsOf (t :: ts) w).2 =
        (handOver (overLink executed (serve E (depth + 1))) env me slotsOf ts
          (pushEntriesTo (overLink executed (serve E (depth + 1))) env t
            (drainSlots env (slotsOf t) s).1
            (w.setStore me (drainSlots env (slotsOf t) s).2))).2 := by
      simp only [handOver, hme, Option.elim_some]
    rw [hstep]
    generalize pushEntriesTo (overLink executed (serve E (depth + 1))) env t
      (drainSlots env (slotsOf t) s).1 (w.setStore me (drainSlots env (slotsOf t) s).2) = w₁ at *
    have hexp₁ : s₁.NoExpiry := by
      intro k e he
      rw [hs₁] at he
      split at he
      · cases he
      · exact hexp k e he
    have htargets₁ : Targets me slotsOf ts w₁ := by
      refine ⟨fun h => htargets.others (List.mem_cons_of_mem t h),
        (List.nodup_cons.mp htargets.nodup).2, fun a ha b hb => ?_, fun a ha n hn => ?_⟩
      · exact htargets.one a (List.mem_cons_of_mem t ha) b (List.mem_cons_of_mem t hb)
      · rw [hother a (fun h => htargets.others (h ▸ List.mem_cons_of_mem t ha))
          fun h => hts (h ▸ ha)] at hn
        exact htargets.owned a (List.mem_cons_of_mem t ha) n hn
    obtain ⟨⟨s', hme', hs'⟩, hrest⟩ := handOver_at depth hme₁ hexp₁ htargets₁
    refine ⟨⟨s', hme', fun k => ?_⟩, fun a ha => ?_⟩
    · rw [hs', hs₁]
      by_cases hslot : slotForKey (Utf8.toBytes k) ∈ slotsOf t <;> simp [hslot]
    · by_cases hat : a = t
      · -- Nothing more is sent to this target.
        subst hat
        refine ⟨fun hnone => (hrest a ha).1 (hdown hnone), fun n hn => ?_⟩
        obtain ⟨st, hst, hat⟩ := hup n hn
        obtain ⟨st', hst', hat'⟩ := (hrest a ha).2 _ hst
        refine ⟨st', hst', fun k => ?_⟩
        rw [hat', hat]
        simp [handed, hts]
      · rw [← hother a ha hat]
        refine ⟨(hrest a ha).1, fun n hn => ?_⟩
        obtain ⟨st, hst, hat'⟩ := (hrest a ha).2 n hn
        refine ⟨st, hst, fun k => ?_⟩
        rw [hat', hs₁]
        simp only [handed, List.mem_cons, hat, false_or]
        by_cases hcond : a ∈ ts ∧ slotForKey (Utf8.toBytes k) ∈ slotsOf a
        · -- The slot does not go to `t`.
          have hslot : slotForKey (Utf8.toBytes k) ∉ slotsOf t := fun h => hat
            (htargets.one a (List.mem_cons_of_mem t hcond.1) t List.mem_cons_self _ hcond.2 h)
          simp only [hcond, and_self, if_true, if_neg hslot]
        · simp only [hcond, if_false]

end Loop

/-! ## Nothing is lost -/

/-- The target ends up with the value `v` at a key where it had `old` : the command for it was
executed and takes the old value over, or nothing happened and it had this value before. -/
def Arrives (executed : Bool) (v : Value) (old : Option Value) : Prop :=
  if executed = true ∧ v.isEmpty = false then v.TakesOver old
  else old.map Value.content = some v.content

theorem content_received_iff {executed : Bool} {env : Env} {k : String} {v : Value}
    {old : Option Entry} :
    (received executed env k v old).map (fun e => e.value.content) = some v.content ↔
      Arrives executed v (old.map Entry.value) := by
  unfold received Arrives
  cases hx : snapshotEntry env k v with
  | none =>
    have hempty := snapshotEntry_eq_none.mp hx
    simp [hempty]
  | some x =>
    have hempty : v.isEmpty = false := by
      rw [Bool.eq_false_iff, Ne, ← @snapshotEntry_eq_none env k, hx]
      simp
    cases executed with
    | false => simp
    | true =>
      simp only [Option.map_some, Option.some.injEq, hempty, and_self, if_true]
      exact SnapshotEntry.content_valueOver_eq_iff hx _

/-- A migration loses nothing exactly if the value of every key that is moved arrives : whatever
the network and the targets do, each key is still held, with its value, by the node that had it
or by the target of its slot. -/
theorem migration_keeps_iff (E : ClusterEnv) (env : Env) (executed : String → Frame → Bool)
    (depth : ℕ) {me : String} {slotsOf : String → List ℕ} {targets : List String} {w : World}
    {s : Store} {cfg : ClusterConfig} (hme : w me = some ⟨s, cfg⟩) (hexp : s.NoExpiry)
    (htargets : Targets me slotsOf targets w) :
    let w' := (handOver (overLink executed (serve E (depth + 1))) env me slotsOf targets w).2
    (∀ k e, s[k]? = some e → w'.Holds me k e.value.content ∨
      ∃ t ∈ targets, slotForKey (Utf8.toBytes k) ∈ slotsOf t ∧ w'.Holds t k e.value.content) ↔
    ∀ k e, s[k]? = some e → ∀ t ∈ targets, slotForKey (Utf8.toBytes k) ∈ slotsOf t →
      ∃ n, w t = some n ∧ Arrives (executed t (buildValueFrame env k e.value (-1))) e.value
        (n.store[k]?.map Entry.value) := by
  intro w'
  obtain ⟨⟨s', hme', hs'⟩, hat⟩ :=
    @handOver_at E env executed me slotsOf depth targets w s cfg hme hexp htargets
  refine forall₃_congr fun k e hk => ?_
  have hholds {t : String} (ht : t ∈ targets) (hslot : slotForKey (Utf8.toBytes k) ∈ slotsOf t) :
      w'.Holds t k e.value.content ↔ ∃ n, w t = some n ∧
        Arrives (executed t (buildValueFrame env k e.value (-1))) e.value
          (n.store[k]?.map Entry.value) := by
    have htme : t ≠ me := fun h => htargets.others (h ▸ ht)
    cases htw : w t with
    | none =>
      have hdown : w' t = none := (hat t htme).1 htw
      simp [World.Holds, hdown]
    | some n =>
      obtain ⟨st, hst, hatk⟩ := (hat t htme).2 n htw
      have hup : w' t = some ⟨st, n.config⟩ := hst
      have hkey := hatk k
      simp only [handed, ht, hslot, and_self, if_true, hk] at hkey
      have hcontent : st.contents k = some e.value.content ↔
          Arrives (executed t (buildValueFrame env k e.value (-1))) e.value
            (n.store[k]?.map Entry.value) := by
        rw [Store.contents, hkey]
        exact content_received_iff
      simp [World.Holds, hup, hcontent]
  constructor
  · rintro hkept t ht hslot
    refine (hholds ht hslot).mp ?_
    rcases hkept with ⟨n, hn, hc⟩ | ⟨t', ht', hslot', hc⟩
    · -- The key was drained.
      obtain rfl := Option.some.inj (hme'.symm.trans hn)
      rw [Store.contents, hs', if_pos ⟨t, ht, hslot⟩] at hc
      cases hc
    · rw [htargets.one t ht t' ht' _ hslot hslot']
      exact hc
  · intro harrives
    by_cases hmoved : ∃ t ∈ targets, slotForKey (Utf8.toBytes k) ∈ slotsOf t
    · obtain ⟨t, ht, hslot⟩ := hmoved
      exact .inr ⟨t, ht, hslot, (hholds ht hslot).mpr (harrives t ht hslot)⟩
    · refine .inl ⟨⟨s', cfg⟩, hme', ?_⟩
      rw [Store.contents, hs', if_neg hmoved, hk]
      rfl

section Failing

/-- Two nodes; the second holds a key of the first. -/
def misplaced : World
  | "a:1" => some ⟨∅, cfgFor ["a:1", "b:1"] "a:1"⟩
  | "b:1" => some ⟨(∅ : Store).insert "k" ⟨.string (Utf8.toBytes "v"), none⟩,
      cfgFor ["a:1", "b:1"] "b:1"⟩
  | _ => none

/-- The slot of the key is to be moved. -/
def slotOfK : String → List ℕ := fun _ => [slotForKey (Utf8.toBytes "k")]

/-- The clock stands, and no peer is in a table. -/
def calm : ClusterEnv := ⟨fun _ => .plain 0, fun _ => []⟩

/-- The second node hands over, over a link on which `executed` calls get through. -/
def handedOver (executed : String → Frame → Bool) : World :=
  (handOver (overLink executed (serve calm 1)) (.plain 0) "b:1" slotOfK ["a:1"] misplaced).2

theorem not_holds {w : World} {a k : String}
    (h : (w a).map (fun n => n.store.contains k) = some false) (c : Content) : ¬ w.Holds a k c := by
  rintro ⟨n, hn, hc⟩
  rw [hn, Option.map_some, Option.some.injEq] at h
  obtain ⟨e, he, -⟩ := Option.map_eq_some_iff.mp hc
  have hmem : n.store.contains k = true := by
    rw [ExtTreeMap.contains_eq_isSome_getElem?, he]
    rfl
  rw [hmem] at h
  cases h

/-- The first node refuses the connection, and the key is gone. -/
theorem refused_migration_loses : misplaced.Holds "b:1" "k" (.string (Utf8.toBytes "v")) ∧
    ∀ c, ¬ (handedOver fun _ _ => false).Holds "b:1" "k" c ∧
      ¬ (handedOver fun _ _ => false).Holds "a:1" "k" c :=
  ⟨⟨_, rfl, by simp [Store.contents, Value.content]⟩,
    fun c => ⟨not_holds (by decide +kernel) c, not_holds (by decide +kernel) c⟩⟩

theorem targets_misplaced : Targets "b:1" slotOfK ["a:1"] misplaced where
  others := by decide
  nodup := List.nodup_singleton _
  one t ht t' ht' _ _ _ := (List.mem_singleton.mp ht).trans (List.mem_singleton.mp ht').symm
  owned t ht n hn slot hslot := by
    obtain rfl := List.mem_singleton.mp ht
    obtain rfl := Option.some.inj hn
    obtain rfl := List.mem_singleton.mp hslot
    decide

/-- The command gets through. -/
theorem migration_keeps_k :
    (handedOver fun _ _ => true).Holds "b:1" "k" (.string (Utf8.toBytes "v")) ∨ ∃ t ∈ ["a:1"],
      slotForKey (Utf8.toBytes "k") ∈ slotOfK t ∧
        (handedOver fun _ _ => true).Holds t "k" (.string (Utf8.toBytes "v")) := by
  have hone {k : String} {e : Entry}
      (hk : ((∅ : Store).insert "k" ⟨.string (Utf8.toBytes "v"), none⟩)[k]? = some e) :
      e = ⟨.string (Utf8.toBytes "v"), none⟩ := by
    rw [FinMap.getElem?_insert] at hk
    split at hk
    · exact (Option.some.inj hk).symm
    · simp at hk
  have hkept := (migration_keeps_iff calm (.plain 0) (fun _ _ => true) 0 rfl
    (fun k e hk => by rw [hone hk]) targets_misplaced).mpr fun k e hk t ht _ => by
      obtain rfl := List.mem_singleton.mp ht
      rw [hone hk]
      exact ⟨_, rfl, trivial⟩
  exact hkept "k" ⟨.string (Utf8.toBytes "v"), none⟩ FinMap.getElem?_insert_self

end Failing

end LoonyRedis
