import LoonyRedis.KeyAccess
import LoonyRedis.Lib.Runs
import LoonyRedis.Membership
import LoonyRedis.Transfer

/-!
# Writes during a migration

The handler of `SYNC` lists the keys of a target, then reads, measures and deletes them one
after the other, then pushes them, and commits the new configuration after the last target. The
node serves clients meanwhile, and owns the slots until the commit. So a write may come after
its key was read, and is overwritten by the deletion, or after the key was listed without being
there, and stays on the node.

The steps of the handler are interleaved here with the writes that the node acknowledges. `ideal`
is what these writes make of the store, if nothing moves. In every run in which the keys of a
write have not been read yet, and have been listed if there was a listing, the new owners hold
this in the end (`acknowledged_writes_arrive`).
-/

namespace LoonyRedis

open Std Store Footprint

/-! ## The system -/

/-- A node that hands over slots, and the nodes that get them. -/
structure Moving where
  /-- The context of the clients of the node. -/
  ctx : CommandContext
  targetCtx : String → CommandContext
  targets : List String
  slotsOf : String → List ℕ
  nodup : targets.Nodup
  one : ∀ t ∈ targets, ∀ t' ∈ targets, ∀ slot ∈ slotsOf t, slot ∈ slotsOf t' → t = t'
  /-- The targets have the new configuration. -/
  serves : ∀ t ∈ targets, ∀ k, slotForKey (Utf8.toBytes k) ∈ slotsOf t → (targetCtx t).ServesKey k

/-- The state of `drain_slots` for a target : the keys that are left, the entries so far, and
the targets after this one. -/
structure Draining where
  target : String
  keys : List String
  entries : List MigrateEntry
  rest : List String

/-- Where the handler stands. -/
inductive MovePhase where
  | next (targets : List String)
  | drain (d : Draining)
  /-- The value of a key was read. -/
  | got (d : Draining) (k : String) (v : Value)
  /-- And its remaining time. -/
  | measured (d : Draining) (k : String) (v : Value) (pttl : ℤ)
  | push (target : String) (entries : List MigrateEntry) (rest : List String)
  | committed

/-- The source, the targets and the handler. -/
structure MoveState where
  source : Store
  others : String → Store
  phase : MovePhase
  /-- What the acknowledged writes have made of the store that the source had at the start. -/
  ideal : Store

/-- A client's write, or a step of the handler. -/
inductive MoveEvent where
  | client (env : Env) (frame : Frame)
  /-- The next step of the handler; a target works in the surroundings `env'`. -/
  | handler (env env' : Env)

namespace Moving

variable (m : Moving)

/-- The handler has not begun. -/
def start (s : Store) (others : String → Store) : MoveState := ⟨s, others, .next m.targets, s⟩

/-- Draining looks a key up, reads its remaining time and deletes it, in three accesses; then
the target is pushed all entries. -/
def handlerStep (σ : MoveState) (env env' : Env) : Option MoveState :=
  match σ.phase with
  | .next [] => some { σ with phase := .committed }
  | .next (t :: ts) =>
    let keys := (σ.source.allKeys env).filter fun k => slotForKey (Utf8.toBytes k) ∈ m.slotsOf t
    some { σ with phase := .drain ⟨t, keys, [], ts⟩ }
  | .drain ⟨t, [], es, ts⟩ => some { σ with phase := .push t es ts }
  | .drain ⟨t, k :: ks, es, ts⟩ =>
    match σ.source.get env.now k with
    | (none, s) => some { σ with source := s, phase := .drain ⟨t, ks, es, ts⟩ }
    | (some v, s) => some { σ with source := s, phase := .got ⟨t, ks, es, ts⟩ k v }
  | .got d k v =>
    let pttl := σ.source.pttl env.now k
    some { σ with phase := if pttl = -2 then .drain d else .measured d k v pttl }
  | .measured d k v pttl =>
    some { σ with
      source := (σ.source.del [k]).2
      phase := .drain { d with entries := d.entries ++ [(k, v, pttl)] } }
  | .push _ [] ts => some { σ with phase := .next ts }
  | .push t (e :: es) ts =>
    let frame := buildValueFrame env e.1 e.2.1 e.2.2
    some { σ with
      others := Function.update σ.others t
        (execute (m.targetCtx t) Deployment.nowhere env' frame (σ.others t)).store
      phase := .push t es ts }
  | .committed => none

/-- Writes that fail are left out : they are not acknowledged. -/
def step (σ : MoveState) : MoveEvent → Option MoveState
  | .client env frame =>
    match requestOf m.ctx frame with
    | none => none
    | some r =>
      let o := r.run m.ctx env σ.source
      if r.isWrite = true ∧ o.reply.isError = false then
        some { σ with source := o.store, ideal := (r.run m.ctx env σ.ideal).store }
      else none
  | .handler env env' => m.handlerStep σ env env'

/-! ## The handler alone -/

section Alone

variable {others : String → Store} {ideal : Store}

theorem run_one {σ τ : MoveState} (env env' : Env) (h : m.handlerStep σ env env' = some τ) :
    Runs.Run m.step (fun _ _ => True) σ τ :=
  .tail (.refl σ) trivial (show m.step σ (.handler env env') = some τ from h)

/-- The steps for the keys of a target are those of `drain_slots`. -/
theorem run_drain (env : Env) (t : String) (ts : List String) : ∀ (ks : List String) (source : Store)
    (es : List MigrateEntry), Runs.Run m.step (fun _ _ => True)
      ⟨source, others, .drain ⟨t, ks, es, ts⟩, ideal⟩
      ⟨(drainLoop env.now ks source).2, others, .push t (es ++ (drainLoop env.now ks source).1) ts,
        ideal⟩
  | [], source, es => by
    simp only [drainLoop, List.append_nil]
    exact run_one m env env rfl
  | k :: ks, source, es => by
    rw [drainLoop]
    cases hget : source.get env.now k with
    | mk v s =>
      cases v with
      | none =>
        refine .trans (run_one m env env ?_) (run_drain env t ts ks s es)
        simp only [handlerStep, hget]
      | some v =>
        refine .trans (run_one m env env (τ := ⟨s, others, .got ⟨t, ks, es, ts⟩ k v, ideal⟩) ?_) ?_
        · simp only [handlerStep, hget]
        · by_cases hskip : s.pttl env.now k = -2
          · simp only [hskip, if_true]
            refine .trans (run_one m env env ?_) (run_drain env t ts ks s es)
            simp only [handlerStep, hskip, if_true]
          · simp only [hskip, if_false]
            refine .trans (run_one m env env
              (τ := ⟨s, others, .measured ⟨t, ks, es, ts⟩ k v (s.pttl env.now k), ideal⟩) ?_) ?_
            · simp only [handlerStep, hskip, if_false]
            · refine .trans (run_one m env env rfl) ?_
              have hrest := run_drain env t ts ks (s.del [k]).2 (es ++ [(k, v, s.pttl env.now k)])
              rwa [List.append_assoc, List.singleton_append] at hrest

/-- A target after it has executed the commands for the entries. -/
def pushAll (env env' : Env) (t : String) (es : List MigrateEntry) (r : Store) : Store :=
  es.foldl (fun r e => (execute (m.targetCtx t) Deployment.nowhere env'
    (buildValueFrame env e.1 e.2.1 e.2.2) r).store) r

/-- The steps for its entries are those of `push_entries_to`. -/
theorem run_push (env env' : Env) (t : String) (ts : List String) (source : Store) :
    ∀ (es : List MigrateEntry) (others : String → Store), Runs.Run m.step (fun _ _ => True)
      ⟨source, others, .push t es ts, ideal⟩
      ⟨source, Function.update others t (m.pushAll env env' t es (others t)), .next ts, ideal⟩
  | [], others => by
    rw [pushAll, List.foldl_nil, Function.update_eq_self]
    exact run_one m env env' rfl
  | e :: es, others => by
    refine .trans (run_one m env env' rfl) ?_
    have hrest := run_push env env' t ts source es (Function.update others t
      (execute (m.targetCtx t) Deployment.nowhere env'
        (buildValueFrame env e.1 e.2.1 e.2.2) (others t)).store)
    rwa [Function.update_idem, Function.update_self] at hrest

/-- Without clients, a target gets what `drain_slots` takes. -/
theorem run_target (env env' : Env) (t : String) (ts : List String) (source : Store) :
    Runs.Run m.step (fun _ _ => True) ⟨source, others, .next (t :: ts), ideal⟩
      ⟨(drainSlots env (m.slotsOf t) source).2, Function.update others t
        (m.pushAll env env' t (drainSlots env (m.slotsOf t) source).1 (others t)), .next ts,
        ideal⟩ := by
  refine .trans (run_one m env env' rfl) (.trans (m.run_drain env t ts _ source []) ?_)
  exact m.run_push env env' t ts _ _ others

end Alone

end Moving

/-! ## Where a key is -/

/-- Where a key of a slot that goes to a target is : still at the source, on the way with a
value, or done with. -/
inductive KeyStatus where
  | waiting
  | carried (v : Value)
  | settled

/-- What the entries say of a key. -/
def carriedIn (es : List MigrateEntry) (k : String) : KeyStatus :=
  match es.find? fun e => e.1 = k with
  | some e => .carried e.2.1
  | none => .settled

/-- What draining one target makes of a key that belongs to `t`. -/
def Draining.status (d : Draining) (t k : String) : KeyStatus :=
  if t = d.target then if k ∈ d.keys then .waiting else carriedIn d.entries k
  else if t ∈ d.rest then .waiting else .settled

/-- What the phase makes of a key that belongs to `t`. -/
def MovePhase.status : MovePhase → String → String → KeyStatus
  | .next ts, t, _ => if t ∈ ts then .waiting else .settled
  | .drain d, t, k => d.status t k
  | .got d k₀ v, t, k | .measured d k₀ v _, t, k =>
    if t = d.target ∧ k = k₀ then .carried v else d.status t k
  | .push t₀ es ts, t, k => Draining.status ⟨t₀, [], es, ts⟩ t k
  | .committed, _, _ => .settled

/-- A client writes keys of a moved slot only while they wait, and sets no expiry. What is pushed
is no empty collection and has no score that is not a number. -/
def Moving.Clean (m : Moving) (σ : MoveState) : MoveEvent → Prop
  | .client env frame => ∀ r, requestOf m.ctx frame = some r →
      (r.run m.ctx env σ.source).store.NoExpiry ∧
      ∀ k ∈ r.touched, ∀ t ∈ m.targets, slotForKey (Utf8.toBytes k) ∈ m.slotsOf t →
        σ.phase.status t k = .waiting
  | .handler _ _ =>
    match σ.phase with
    | .push _ (e :: _) _ => e.2.1.isEmpty = false ∧ ¬ e.2.1.HasNaN
    | _ => True

/-! ## The invariant -/

/-- What is to hold of a key of a moved slot, at the source and at its target. -/
def KeyStatus.Right (source ideal target : Store) (k : String) : KeyStatus → Prop
  | .waiting => source[k]? = ideal[k]? ∧ target[k]? = none
  | .carried v => ideal[k]?.map Entry.value = some v ∧ target[k]? = none
  | .settled => target.contents k = ideal.contents k

namespace Moving

variable (m : Moving)

/-- The keys of a target that are left or on the way are different keys of its slots. -/
structure DrainOk (t : String) (keys : List String) (es : List MigrateEntry) (rest : List String) :
    Prop where
  targets : (t :: rest).Sublist m.targets
  nodup : (keys ++ es.map Prod.fst).Nodup
  slots : ∀ k ∈ keys ++ es.map Prod.fst, slotForKey (Utf8.toBytes k) ∈ m.slotsOf t
  pttl : ∀ e ∈ es, e.2.2 = -1

/-- What the handler knows is right. -/
def PhaseOk (σ : MoveState) : Prop :=
  match σ.phase with
  | .next ts => ts.Sublist m.targets
  | .drain d => m.DrainOk d.target d.keys d.entries d.rest
  | .got d k _ =>
    m.DrainOk d.target (k :: d.keys) d.entries d.rest ∧ σ.source[k]? = σ.ideal[k]?
  | .measured d k _ pttl => m.DrainOk d.target (k :: d.keys) d.entries d.rest ∧ pttl = -1
  | .push t es ts => m.DrainOk t [] es ts
  | .committed => True

/-- Where the ideal value of each key is. -/
structure Inv (σ : MoveState) : Prop where
  noExpiry : σ.source.NoExpiry
  unmoved : ∀ k, (∀ t ∈ m.targets, slotForKey (Utf8.toBytes k) ∉ m.slotsOf t) →
    σ.source[k]? = σ.ideal[k]?
  moved : ∀ t ∈ m.targets, ∀ k, slotForKey (Utf8.toBytes k) ∈ m.slotsOf t →
    (σ.phase.status t k).Right σ.source σ.ideal (σ.others t) k
  phase : m.PhaseOk σ

variable {m} {σ τ : MoveState}

theorem inv_start {s : Store} {others : String → Store} (hs : s.NoExpiry)
    (hfree : ∀ t ∈ m.targets, ∀ k, slotForKey (Utf8.toBytes k) ∈ m.slotsOf t →
      (others t)[k]? = none) : m.Inv (m.start s others) where
  noExpiry := hs
  unmoved _ _ := rfl
  moved t ht k hk := by
    simp only [start, MovePhase.status, ht, if_true]
    exact ⟨rfl, hfree t ht k hk⟩
  phase := List.Sublist.refl _

theorem right_congr {source source' ideal ideal' target target' : Store} {k : String}
    {st : KeyStatus} (hsource : source'[k]? = source[k]?) (hideal : ideal'[k]? = ideal[k]?)
    (htarget : target'[k]? = target[k]?) (h : st.Right source ideal target k) :
    st.Right source' ideal' target' k := by
  cases st with
  | waiting => rwa [KeyStatus.Right, hsource, hideal, htarget]
  | carried v => rwa [KeyStatus.Right, hideal, htarget]
  | settled => rwa [KeyStatus.Right, Store.contents, Store.contents, hideal, htarget]

/-! ## A write of a client -/

theorem inv_client {env : Env} {frame : Frame} (h : m.Inv σ) (hclean : m.Clean σ (.client env frame))
    (hstep : m.step σ (.client env frame) = some τ) : m.Inv τ := by
  simp only [step] at hstep
  cases hr : requestOf m.ctx frame with
  | none => simp [hr] at hstep
  | some r =>
    obtain ⟨hexp, hwaiting⟩ := hclean r hr
    have hlocal := r.local_run m.ctx env
    simp only [hr] at hstep
    split at hstep
    · obtain rfl := Option.some.inj hstep
      have hagree : Agree look r.touched σ.source σ.ideal := by
        intro k hk
        by_cases hmoved : ∃ t ∈ m.targets, slotForKey (Utf8.toBytes k) ∈ m.slotsOf t
        · obtain ⟨t, ht, hslot⟩ := hmoved
          have hright := h.moved t ht k hslot
          rw [hwaiting k hk t ht hslot] at hright
          exact hright.1
        · exact h.unmoved k fun t ht hslot => hmoved ⟨t, ht, hslot⟩
      have hin {k : String} (hk : k ∈ r.touched) : (r.run m.ctx env σ.source).store[k]? =
          (r.run m.ctx env σ.ideal).store[k]? := hlocal.inside hagree k hk
      have hsource {k : String} (hk : k ∉ r.touched) :
          (r.run m.ctx env σ.source).store[k]? = σ.source[k]? := hlocal.outside σ.source hk
      have hideal {k : String} (hk : k ∉ r.touched) :
          (r.run m.ctx env σ.ideal).store[k]? = σ.ideal[k]? := hlocal.outside σ.ideal hk
      refine ⟨hexp, fun k hk => ?_, fun t ht k hslot => ?_, ?_⟩
      · by_cases hmem : k ∈ r.touched
        · exact hin hmem
        · simp only [hsource hmem, hideal hmem]
          exact h.unmoved k hk
      · have hright := h.moved t ht k hslot
        by_cases hmem : k ∈ r.touched
        · simp only [hwaiting k hmem t ht hslot] at hright ⊢
          exact ⟨hin hmem, hright.2⟩
        · exact right_congr (hsource hmem) (hideal hmem) rfl hright
      · have hphase := h.phase
        unfold PhaseOk at hphase ⊢
        cases hp : σ.phase with
        | got d k v =>
          simp only [hp] at hphase ⊢
          refine ⟨hphase.1, ?_⟩
          -- A key that was read does not wait.
          have hmem : k ∉ r.touched := by
            intro hmem
            have ht := hphase.1.targets.mem List.mem_cons_self
            have hwait := hwaiting k hmem d.target ht (hphase.1.slots k (by simp))
            simp [hp, MovePhase.status] at hwait
          rw [hsource hmem, hideal hmem]
          exact hphase.2
        | next | drain | measured | push =>
          rw [hp] at hphase
          exact hphase
        | committed => trivial
    · cases hstep

/-! ## Steps of the handler -/

section Handler

variable {source : Store} {others : String → Store} {ideal : Store} {env env' : Env}

theorem find?_eq_none_of_not_mem {es : List MigrateEntry} {k : String}
    (h : k ∉ es.map Prod.fst) : (es.find? fun e => e.1 = k) = none := by
  rw [List.find?_eq_none]
  intro e he hkey
  rw [decide_eq_true_eq] at hkey
  exact h (List.mem_map.mpr ⟨e, he, hkey⟩)

/-- The keys of a target are listed : those that are not there have nothing to move. -/
theorem inv_list {t : String} {ts : List String}
    (h : m.Inv ⟨source, others, .next (t :: ts), ideal⟩) :
    m.Inv ⟨source, others, .drain ⟨t, (source.allKeys env).filter
      (fun k => slotForKey (Utf8.toBytes k) ∈ m.slotsOf t), [], ts⟩, ideal⟩ := by
  have hperm := Deployment.allKeys_perm h.noExpiry env
  have hnd := m.nodup.sublist h.phase
  rw [List.nodup_cons] at hnd
  refine ⟨h.noExpiry, h.unmoved, fun t' ht' k hslot => ?_, ?_, ?_, ?_, ?_⟩
  · have hright := h.moved t' ht' k hslot
    simp only [MovePhase.status, Draining.status, carriedIn, List.find?_nil, List.mem_filter,
      hperm.mem_iff, ExtTreeMap.mem_keys, decide_eq_true_eq] at hright ⊢
    by_cases heq : t' = t
    · subst heq
      simp only [List.mem_cons_self, if_true, hslot, and_true] at hright ⊢
      by_cases hk : k ∈ source
      · simpa only [hk, if_true] using hright
      · have hnone : ideal[k]? = none := hright.1.symm.trans (ExtTreeMap.getElem?_eq_none hk)
        simp only [hk, if_false, KeyStatus.Right, Store.contents, hright.2, hnone]
    · simpa only [List.mem_cons, heq, false_or, if_false] using hright
  · exact h.phase
  · simpa using (hperm.nodup_iff.mpr ExtTreeMap.nodup_keys).filter _
  · intro k hk
    simp only [List.map_nil, List.append_nil, List.mem_filter, decide_eq_true_eq] at hk
    exact hk.2
  · simp

/-- A key that is not there any more is passed over. -/
theorem inv_missing {t k : String} {ks : List String} {es : List MigrateEntry} {ts : List String}
    (h : m.Inv ⟨source, others, .drain ⟨t, k :: ks, es, ts⟩, ideal⟩) (hk : source[k]? = none) :
    m.Inv ⟨source, others, .drain ⟨t, ks, es, ts⟩, ideal⟩ := by
  obtain ⟨htargets, hnd, hslots, hpttl⟩ := h.phase
  rw [List.cons_append, List.nodup_cons] at hnd
  refine ⟨h.noExpiry, h.unmoved, fun t' ht' k' hslot => ?_, htargets, hnd.2,
    fun k' hk' => hslots k' (List.mem_cons_of_mem k hk'), hpttl⟩
  have hright := h.moved t' ht' k' hslot
  simp only [MovePhase.status, Draining.status, List.mem_cons] at hright ⊢
  by_cases heq : t' = t
  · subst heq
    by_cases hkk : k' = k
    · subst hkk
      have hnot : k' ∉ ks := fun hmem => hnd.1 (List.mem_append_left _ hmem)
      have hfind : (es.find? fun e => e.1 = k') = none :=
        find?_eq_none_of_not_mem fun hmem => hnd.1 (List.mem_append_right _ hmem)
      simp only [true_or, if_true] at hright
      simp only [hnot, if_false, if_true, carriedIn, hfind, KeyStatus.Right, Store.contents, hright.2,
        ← hright.1, hk]
    · simpa only [hkk, false_or] using hright
  · simpa only [heq, if_false] using hright

/-- A key is read. -/
theorem inv_read {t k : String} {ks : List String} {es : List MigrateEntry} {ts : List String}
    {e : Entry} (h : m.Inv ⟨source, others, .drain ⟨t, k :: ks, es, ts⟩, ideal⟩)
    (hk : source[k]? = some e) :
    m.Inv ⟨source, others, .got ⟨t, ks, es, ts⟩ k e.value, ideal⟩ := by
  have hphase := h.phase
  have ht := hphase.targets.mem List.mem_cons_self
  have hwait := h.moved t ht k (hphase.slots k (by simp))
  simp only [MovePhase.status, Draining.status, List.mem_cons, true_or, if_true] at hwait
  refine ⟨h.noExpiry, h.unmoved, fun t' ht' k' hslot => ?_, hphase, hwait.1⟩
  have hright := h.moved t' ht' k' hslot
  simp only [MovePhase.status, Draining.status, List.mem_cons] at hright ⊢
  by_cases heq : t' = t ∧ k' = k
  · obtain ⟨rfl, rfl⟩ := heq
    simp only [and_self, if_true]
    exact ⟨by rw [← hwait.1, hk, Option.map_some], hwait.2⟩
  · rw [if_neg heq]
    by_cases htt : t' = t
    · have hkk : k' ≠ k := fun hkk => heq ⟨htt, hkk⟩
      simpa only [hkk, false_or] using hright
    · simpa only [htt, if_false] using hright

/-- A key is deleted, and its entry is on the way. -/
theorem inv_delete {d : Draining} {k : String} {v : Value} {pttl : ℤ}
    (h : m.Inv ⟨source, others, .measured d k v pttl, ideal⟩) :
    m.Inv ⟨(source.del [k]).2, others, .drain { d with entries := d.entries ++ [(k, v, pttl)] },
      ideal⟩ := by
  obtain ⟨⟨htargets, hnd, hslots, hpttl⟩, rfl⟩ := h.phase
  have hdel : (source.del [k]).2 = source.erase k := rfl
  have hother {k' : String} (hne : k' ≠ k) : (source.erase k)[k']? = source[k']? := by
    rw [FinMap.getElem?_erase, if_neg (Ne.symm hne)]
  rw [List.cons_append, List.nodup_cons] at hnd
  have ht := htargets.mem List.mem_cons_self
  have hslotk := hslots k (by simp)
  rw [hdel]
  refine ⟨fun k' e he => ?_, fun k' hk' => ?_, fun t' ht' k' hslot => ?_, htargets, ?_, ?_, ?_⟩
  · rw [FinMap.getElem?_erase] at he
    split at he
    · cases he
    · exact h.noExpiry k' e he
  · have hne : k' ≠ k := fun heq => hk' d.target ht (heq ▸ hslotk)
    simp only [hother hne]
    exact h.unmoved k' hk'
  · have hright := h.moved t' ht' k' hslot
    simp only [MovePhase.status, Draining.status] at hright ⊢
    by_cases heq : t' = d.target
    · subst heq
      by_cases hkk : k' = k
      · subst hkk
        have hnot : k' ∉ d.keys := fun hmem => hnd.1 (List.mem_append_left _ hmem)
        have hfind : (d.entries.find? fun e => e.1 = k') = none :=
          find?_eq_none_of_not_mem fun hmem => hnd.1 (List.mem_append_right _ hmem)
        have hcarried : carriedIn (d.entries ++ [(k', v, -1)]) k' = .carried v := by
          simp [carriedIn, List.find?_append, hfind]
        simp only [and_self, if_true] at hright
        simp only [if_true, hnot, if_false, hcarried]
        exact hright
      · have hcarried : carriedIn (d.entries ++ [(k, v, -1)]) k' = carriedIn d.entries k' := by
          simp [carriedIn, List.find?_append, Ne.symm hkk]
        simp only [hkk, and_false, if_false, if_true] at hright
        simp only [if_true, hcarried]
        exact right_congr (hother hkk) rfl rfl hright
    · have hkk : k' ≠ k := by
        rintro rfl
        exact heq (m.one t' ht' d.target ht _ hslot hslotk)
      simp only [heq, false_and, if_false] at hright ⊢
      exact right_congr (hother hkk) rfl rfl hright
  · rw [List.map_append, ← List.append_assoc]
    exact (List.perm_append_singleton k _).nodup_iff.mpr (List.nodup_cons.mpr hnd)
  · intro k' hk'
    exact hslots k' ((List.perm_append_singleton k _).mem_iff.mp (by simpa using hk'))
  · intro e he
    rcases List.mem_append.mp he with he | he
    · exact hpttl e he
    · rw [List.mem_singleton.mp he]

/-- An entry is executed by the target, which does not hold the key yet. -/
theorem inv_push {t : String} {e : MigrateEntry} {es : List MigrateEntry} {ts : List String}
    (h : m.Inv ⟨source, others, .push t (e :: es) ts, ideal⟩) (hempty : e.2.1.isEmpty = false)
    (hnan : ¬ e.2.1.HasNaN) :
    m.Inv ⟨source, Function.update others t (execute (m.targetCtx t) Deployment.nowhere env'
      (buildValueFrame env e.1 e.2.1 e.2.2) (others t)).store, .push t es ts, ideal⟩ := by
  obtain ⟨k, v, pttl⟩ := e
  obtain ⟨htargets, hnd, hslots, hpttl⟩ := h.phase
  simp only [List.nil_append, List.map_cons, List.nodup_cons, List.forall_mem_cons]
    at hnd hslots hpttl
  obtain ⟨rfl, hpttl⟩ := hpttl
  obtain ⟨hslotk, hslots⟩ := hslots
  have ht := htargets.mem List.mem_cons_self
  obtain ⟨x, hx, -⟩ := @buildValueFrame_eq env k v hempty
  rw [execute_value (m.serves t ht k hslotk), hx]
  refine ⟨h.noExpiry, h.unmoved, fun t' ht' k' hslot => ?_, htargets, hnd.2, hslots, hpttl⟩
  have hright := h.moved t' ht' k' hslot
  simp only [MovePhase.status, Draining.status, List.not_mem_nil, if_false] at hright ⊢
  by_cases heq : t' = t
  · subst heq
    simp only [if_true, Function.update_self] at hright ⊢
    by_cases hkk : k' = k
    · subst hkk
      have hcarried : carriedIn ((k', v, -1) :: es) k' = .carried v := by simp [carriedIn]
      have hsettled : carriedIn es k' = .settled := by
        simp only [carriedIn, find?_eq_none_of_not_mem hnd.1]
      rw [hcarried] at hright
      rw [hsettled]
      obtain ⟨hideal, hnone⟩ := hright
      obtain ⟨e, he, hv⟩ := Option.map_eq_some_iff.mp hideal
      have hcontent := (SnapshotEntry.content_valueOver_eq_iff hx none).mpr
        (SnapshotEntry.takesOver_none.mpr hnan)
      rw [KeyStatus.Right, Store.contents, Store.contents, FinMap.getElem?_insert, if_pos rfl, hnone,
        he]
      simp [hcontent, hv]
    · have hcarried : carriedIn ((k, v, -1) :: es) k' = carriedIn es k' := by
        simp [carriedIn, Ne.symm hkk]
      rw [hcarried] at hright
      refine right_congr rfl rfl ?_ hright
      rw [FinMap.getElem?_insert, if_neg (Ne.symm hkk)]
  · simpa only [heq, if_false, Function.update_of_ne heq] using hright

theorem inv_handler (h : m.Inv σ) (hclean : m.Clean σ (.handler env env'))
    (hstep : m.step σ (.handler env env') = some τ) : m.Inv τ := by
  obtain ⟨source, others, phase, ideal⟩ := σ
  simp only [step, handlerStep] at hstep
  cases phase with
  | next ts =>
    cases ts with
    | nil =>
      obtain rfl := Option.some.inj hstep
      exact ⟨h.noExpiry, h.unmoved, fun t ht k hslot => h.moved t ht k hslot, trivial⟩
    | cons t ts =>
      obtain rfl := Option.some.inj hstep
      exact inv_list h
  | drain d =>
    obtain ⟨t, ks, es, ts⟩ := d
    cases ks with
    | nil =>
      obtain rfl := Option.some.inj hstep
      exact ⟨h.noExpiry, h.unmoved, h.moved, h.phase⟩
    | cons k ks =>
      cases hk : source[k]? with
      | none =>
        have hget : source.get env.now k = (none, source) := by simp [Store.get, hk]
        simp only [hget] at hstep
        obtain rfl := Option.some.inj hstep
        exact inv_missing h hk
      | some e =>
        have hlive : e.isExpired env.now = false := by
          rw [Entry.isExpired, h.noExpiry k e hk]
        have hget : source.get env.now k = (some e.value, source) := by simp [Store.get, hk, hlive]
        simp only [hget] at hstep
        obtain rfl := Option.some.inj hstep
        exact inv_read h hk
  | got d k v =>
    obtain ⟨hdrain, hsame⟩ := h.phase
    have ht := hdrain.targets.mem List.mem_cons_self
    have hcarried := h.moved d.target ht k (hdrain.slots k (by simp))
    simp only [MovePhase.status, and_self, if_true] at hcarried
    obtain ⟨e, he, -⟩ := Option.map_eq_some_iff.mp hcarried.1
    have hk : source[k]? = some e := hsame.trans he
    have hnone := h.noExpiry k e hk
    have hlive : e.isExpired env.now = false := by rw [Entry.isExpired, hnone]
    have hpttl : source.pttl env.now k = -1 := by simp [Store.pttl, hk, hlive, hnone]
    simp only [hpttl] at hstep
    rw [if_neg (by decide)] at hstep
    obtain rfl := Option.some.inj hstep
    exact ⟨h.noExpiry, h.unmoved, h.moved, hdrain, rfl⟩
  | measured d k v pttl =>
    obtain rfl := Option.some.inj hstep
    exact inv_delete h
  | push t es ts =>
    cases es with
    | nil =>
      obtain rfl := Option.some.inj hstep
      have hdrain : m.DrainOk t [] [] ts := h.phase
      have hnd := m.nodup.sublist hdrain.targets
      rw [List.nodup_cons] at hnd
      refine ⟨h.noExpiry, h.unmoved, fun t' ht' k hslot => ?_,
        (List.sublist_cons_self t ts).trans hdrain.targets⟩
      have hright := h.moved t' ht' k hslot
      simp only [MovePhase.status, Draining.status] at hright ⊢
      by_cases heq : t' = t
      · subst heq
        simp only [List.not_mem_nil, if_false, if_true] at hright
        simp only [hnd.1, if_false]
        exact hright
      · simpa only [heq, if_false] using hright
    | cons e es =>
      obtain rfl := Option.some.inj hstep
      exact inv_push h hclean.1 hclean.2
  | committed => cases hstep

end Handler

/-! ## Runs -/

theorem inv_step {ev : MoveEvent} (h : m.Inv σ) (hclean : m.Clean σ ev)
    (hstep : m.step σ ev = some τ) : m.Inv τ := by
  cases ev with
  | client env frame => exact inv_client h hclean hstep
  | handler env env' => exact inv_handler h hclean hstep

/-- In every run whose steps are clean, when the handler has finished, the new owner of a moved
slot holds of its keys what the acknowledged writes have made of them. -/
theorem acknowledged_writes_arrive (m : Moving) {s : Store} (hs : s.NoExpiry)
    {others : String → Store}
    (hfree : ∀ t ∈ m.targets, ∀ k, slotForKey (Utf8.toBytes k) ∈ m.slotsOf t →
      (others t)[k]? = none)
    {σ : MoveState} (hrun : Runs.Run m.step m.Clean (m.start s others) σ)
    (hdone : σ.phase = .committed) :
    ∀ t ∈ m.targets, ∀ k, slotForKey (Utf8.toBytes k) ∈ m.slotsOf t →
      (σ.others t).contents k = σ.ideal.contents k := by
  intro t ht k hslot
  have hinv : m.Inv σ := hrun.invariant (fun _ _ _ h hclean hstep => inv_step h hclean hstep)
    (inv_start hs hfree)
  have hright := hinv.moved t ht k hslot
  rw [hdone] at hright
  exact hright

end Moving

section Failing

/-- The slot of `k` goes to another node. -/
def movingK : Moving where
  ctx := .standalone
  targetCtx _ := .standalone
  targets := ["b:1"]
  slotsOf _ := [slotForKey (Utf8.toBytes "k")]
  nodup := List.nodup_singleton _
  one _ ht _ ht' _ _ _ := (List.mem_singleton.mp ht).trans (List.mem_singleton.mp ht').symm
  serves _ _ _ _ := .inr ⟨rfl, rfl, fun _ h => nomatch h⟩

/-- The key `k` with the value 1. -/
def oldK : Store := (∅ : Store).insert "k" ⟨.string (Utf8.toBytes "1"), none⟩

/-- A step of the handler. -/
def handlerMove : MoveEvent := .handler (.plain 0) (.plain 0)

/-- `SET k 2`. -/
def setK : MoveEvent := .client (.plain 0) (.command ["SET", "k", "2"])

/-- Whether the handler is done. -/
def MoveState.isCommitted (σ : MoveState) : Bool :=
  match σ.phase with
  | .committed => true
  | _ => false

theorem MoveState.phase_of_isCommitted {σ : MoveState} (h : σ.isCommitted = true) :
    σ.phase = .committed := by
  unfold isCommitted at h
  split at h
  · assumption
  · cases h

/-- The key is read, then written by a client, then deleted and pushed. -/
theorem acknowledged_write_lost : ∃ σ, Runs.Run movingK.step (fun _ _ => True)
    (movingK.start oldK fun _ => ∅) σ ∧ σ.phase = .committed ∧
      (σ.others "b:1").contents "k" ≠ σ.ideal.contents "k" := by
  have hrun : (Runs.exec movingK.step (fun _ _ => True) (movingK.start oldK fun _ => ∅)
      ([handlerMove, handlerMove, setK] ++ List.replicate 6 handlerMove)).any
      (fun σ => σ.isCommitted && stringAt (σ.others "b:1") "k" ≠ stringAt σ.ideal "k") = true := by
    decide +kernel
  obtain ⟨σ, hσ, hp⟩ := Runs.exists_run_of_exec hrun
  rw [Bool.and_eq_true, decide_eq_true_eq] at hp
  exact ⟨σ, hσ, MoveState.phase_of_isCommitted hp.1, fun heq => hp.2 (stringAt_congr_at heq)⟩

/-- A write before the keys are listed, and a string that is pushed. -/
def isCalm (σ : MoveState) : MoveEvent → Bool
  | .client env frame =>
    (match σ.phase with
    | .next ts => ts = ["b:1"]
    | _ => false) && (requestOf movingK.ctx frame).all fun r =>
      let after := (r.run movingK.ctx env σ.source).store
      after.keys.all fun k => after[k]?.all fun e => e.expiresAt.isNone
  | .handler _ _ =>
    match σ.phase with
    | .push _ ((_, .string _, _) :: _) _ => true
    | .push _ (_ :: _) _ => false
    | _ => true

theorem clean_of_isCalm {σ : MoveState} {ev : MoveEvent} (h : isCalm σ ev = true) :
    movingK.Clean σ ev := by
  obtain ⟨source, others, phase, ideal⟩ := σ
  cases ev with
  | client env frame =>
    intro r hr
    rw [isCalm, hr, Bool.and_eq_true] at h
    obtain ⟨hphase, hall⟩ := h
    refine ⟨fun k e he => ?_, fun k _ t ht _ => ?_⟩
    · have hk := List.all_eq_true.mp hall k
        (ExtTreeMap.mem_keys.mpr (ExtTreeMap.mem_iff_isSome_getElem?.mpr (by rw [he]; rfl)))
      rw [he] at hk
      exact Option.isNone_iff_eq_none.mp hk
    · cases phase with
      | next ts =>
        obtain rfl : ts = ["b:1"] := of_decide_eq_true hphase
        exact if_pos ht
      | _ => cases hphase
  | handler env env' =>
    match phase with
    | .push _ ((_, .string _, _) :: _) _ => exact ⟨rfl, id⟩
    | .push _ [] _ | .next _ | .drain _ | .got _ _ _ | .measured _ _ _ _ | .committed => trivial

/-- The client writes first. -/
theorem acknowledged_write_moved : ∃ σ : MoveState, σ.phase = .committed ∧
    stringAt σ.ideal "k" = some (Utf8.toBytes "2") ∧
      (σ.others "b:1").contents "k" = σ.ideal.contents "k" := by
  have hrun : (Runs.exec movingK.step (fun σ ev => isCalm σ ev = true)
      (movingK.start oldK fun _ => ∅) (setK :: List.replicate 8 handlerMove)).any
      (fun σ => σ.isCommitted && stringAt σ.ideal "k" = some (Utf8.toBytes "2")) = true := by
    decide +kernel
  obtain ⟨σ, hσ, hp⟩ := Runs.exists_run_of_exec hrun
  rw [Bool.and_eq_true, decide_eq_true_eq] at hp
  have hdone := MoveState.phase_of_isCommitted hp.1
  refine ⟨σ, hdone, hp.2, Moving.acknowledged_writes_arrive movingK (s := oldK) (fun k e he => ?_)
    (fun _ _ _ _ => ExtTreeMap.getElem?_empty) (hσ.mono fun _ _ => clean_of_isCalm) hdone "b:1"
    List.mem_cons_self "k" List.mem_cons_self⟩
  rw [oldK, FinMap.getElem?_insert] at he
  split at he
  · rw [← Option.some.inj he]
  · simp at he

end Failing

end LoonyRedis
