import LoonyRedis.Determinism

/-!
# The order of writes on the leader and in the stream

Each connection is served by a task of its own. A write changes the store first and is
broadcast afterwards, and between the two steps another connection may do either of them : a
write that changed the store later can be broadcast earlier. Replicas then execute the two in
the other order.

`Deployment.orderStep` lets two clients take these steps in any interleaving. The frames that
were broadcast, followed by the pending ones in the order in which they changed the store, lead
a replica to the contents of the leader (`OrderInv`); a broadcast that overtakes a pending write
keeps this exactly if the two commute on the contents that the replica has by then.
-/

namespace LoonyRedis

open Std Store

/-- The two clients. -/
inductive Client where
  | first
  | second
  deriving DecidableEq

/-- A leader with the writes on their way to its replicas. -/
structure OrderState where
  leader : Store
  /-- The writes that have changed the store and are not broadcast yet, in the order in which
  they changed it. -/
  pending : List (Client × Frame)
  /-- What was broadcast, in order. -/
  channel : List Frame

/-- The steps of the clients. -/
inductive OrderEvent where
  /-- A command of a client is dispatched. -/
  | dispatch (c : Client) (env : Env) (frame : Frame)
  /-- The command of a client that was dispatched is broadcast. -/
  | broadcast (c : Client)

namespace OrderState

/-- Nothing was written. -/
def start (s : Store) : OrderState := ⟨s, [], []⟩

/-- The pending writes that a broadcast of `c` overtakes. -/
def overtaken (σ : OrderState) (c : Client) : List (Client × Frame) :=
  σ.pending.takeWhile fun p => p.1 ≠ c

/-- The pending write of `c`, and the later ones. -/
def fromClient (σ : OrderState) (c : Client) : List (Client × Frame) :=
  σ.pending.dropWhile fun p => p.1 ≠ c

theorem overtaken_append (σ : OrderState) (c : Client) :
    σ.overtaken c ++ σ.fromClient c = σ.pending := List.takeWhile_append_dropWhile

end OrderState

/-- A write command whose result depends neither on chance nor on the time, or that is
refused for its arguments. -/
def isOrdered (ctx : CommandContext) (frame : Frame) : Bool :=
  (frameName frame).any isWrite && (requestOf ctx frame).all Request.isDeterministicWrite

namespace Deployment

variable (d : Deployment)

/-- A client dispatches a command once its last one was broadcast, or was none to broadcast. -/
def orderStep (σ : OrderState) : OrderEvent → Option OrderState
  | .dispatch c env frame =>
    let o := d.onLeader env frame σ.leader
    if c ∉ σ.pending.map Prod.fst ∧ isOrdered d.leader frame = true then
      some { σ with
        leader := o.store
        pending := if broadcasts d.leader frame o.reply then σ.pending ++ [(c, frame)]
          else σ.pending }
    else none
  | .broadcast c =>
    match σ.fromClient c with
    | [] => none
    | (_, f) :: later => some { σ with
        pending := σ.overtaken c ++ later
        channel := σ.channel ++ [f] }

/-- A command is not caught in the middle; and the write that is broadcast commutes with those
it overtakes, on what a replica that began with `t` holds. -/
def InOrder (t : Store) (σ : OrderState) : OrderEvent → Prop
  | .dispatch _ _ frame => ∀ r, requestOf d.leader frame = some r → ¬ r.Halfway σ.leader
  | .broadcast c =>
    match σ.fromClient c with
    | [] => True
    | (_, f) :: _ =>
      let earlier := (σ.overtaken c).map Prod.snd
      let r := d.replay (.plain 0) σ.channel t
      (d.replay (.plain 0) (f :: earlier) r).contents =
        (d.replay (.plain 0) (earlier ++ [f]) r).contents

/-! ## Replaying such writes -/

variable {d} {s t : Store}

theorem steady_of_isDeterministicWrite {r : Request} (h : r.isDeterministicWrite = true)
    (s : Store) : r.Steady s := by
  cases r with
  | set key val ttl nx xx =>
    cases ttl with
    | none => exact ⟨id, rfl⟩
    | some ttl => cases h
  | spop | expire => cases h
  | _ => exact ⟨id, rfl⟩

/-- What is ordered on the leader is ordered on the replica. -/
theorem isOrdered_replica (hleader : d.leader.isLeader = true) {f : Frame}
    (h : isOrdered d.leader f = true) : isOrdered d.replica f = true := by
  have hdoes : d.leader.DoesWrites := Or.inr ⟨d.leader_raft, d.leader_cluster, hleader⟩
  have hdoes' : d.replica.DoesWrites := Or.inl d.replica_replay
  rw [isOrdered, Bool.and_eq_true] at h ⊢
  refine ⟨h.1, ?_⟩
  rcases execute_of_doesWrites h.1 with ⟨r, -, hexec⟩ | ⟨g, hexec⟩
  · rw [(hexec d.replica hdoes').1, ← (hexec d.leader hdoes).1]
    exact h.2
  · rw [(hexec d.replica hdoes').1]
    rfl

theorem along_of_isOrdered {ctx : CommandContext} {elsewhere : Route → Store → Outcome}
    {envAt : ℕ → Env} : ∀ {fs : List Frame} {i : ℕ} {s : Store},
      (∀ f ∈ fs, isOrdered ctx f = true) →
      Along ctx elsewhere envAt (fun s r => r.Steady s) i fs s
  | [], _, _, _ => trivial
  | f :: fs, i, s, hfs => by
    rw [List.forall_mem_cons] at hfs
    refine ⟨fun r hr => steady_of_isDeterministicWrite ?_ s, along_of_isOrdered hfs.2⟩
    have hall := hfs.1
    rw [isOrdered, hr, Bool.and_eq_true] at hall
    exact hall.2

/-- A replica does the same to stores that are the same, in any surroundings. -/
theorem applyLog_same_replay {fs : List Frame} (hfs : ∀ f ∈ fs, isOrdered d.replica f = true)
    (h : s.Same t) (envAt : ℕ → Env) (env : Env) :
    (applyLog d.replica nowhere envAt 0 fs s).Same (d.replay env fs t) := by
  have hdoes : d.replica.DoesWrites := Or.inl d.replica_replay
  rw [replay_eq_applyLog env fs 0]
  refine applyLog_same hdoes hdoes h (fun f hf => ?_) (along_of_isOrdered hfs)
  have hf := hfs f hf
  rw [isOrdered, Bool.and_eq_true] at hf
  exact hf.1

theorem replay_same_of_isOrdered {fs : List Frame} (hfs : ∀ f ∈ fs, isOrdered d.replica f = true)
    (h : s.Same t) (env : Env) : (d.replay env fs s).Same (d.replay env fs t) := by
  rw [replay_eq_applyLog env fs 0 s]
  exact applyLog_same_replay hfs h _ env

/-! ## Runs -/

/-- The replica will have the contents of the leader when it has executed all that was
broadcast and then the pending writes. -/
structure OrderInv (d : Deployment) (t : Store) (σ : OrderState) : Prop where
  ordered : ∀ f ∈ σ.channel ++ σ.pending.map Prod.snd, isOrdered d.replica f = true
  agree : (d.replay (.plain 0) (σ.channel ++ σ.pending.map Prod.snd) t).Same σ.leader

variable {σ τ : OrderState}

theorem orderInv_start (h : t.Same s) : d.OrderInv t (.start s) where
  ordered := by simp [OrderState.start]
  agree := h

theorem orderInv_dispatch (hleader : d.leader.isLeader = true)
    (hclient : d.leader.isReplicaReplay = false) {c : Client} {env : Env} {frame : Frame}
    (h : d.OrderInv t σ) (hok : d.InOrder t σ (.dispatch c env frame))
    (hstep : d.orderStep σ (.dispatch c env frame) = some τ) : d.OrderInv t τ := by
  simp only [orderStep] at hstep
  split at hstep
  · next hcond =>
    obtain ⟨-, hordered⟩ := hcond
    obtain rfl := Option.some.inj hstep
    have hwrite : (frameName frame).any isWrite = true := by
      rw [isOrdered, Bool.and_eq_true] at hordered
      exact hordered.1
    have hsteady : ∀ r, requestOf d.leader frame = some r → r.Steady σ.leader := by
      intro r hr
      rw [isOrdered, hr, Bool.and_eq_true] at hordered
      exact steady_of_isDeterministicWrite hordered.2 _
    -- The replica that has executed everything else executes this one too, if it gets it.
    have hserve : (d.onLeader env frame σ.leader).store.Same
        (if broadcasts d.leader frame (d.onLeader env frame σ.leader).reply then
          d.onReplica (.plain 0) frame
            (d.replay (.plain 0) (σ.channel ++ σ.pending.map Prod.snd) t)
        else d.replay (.plain 0) (σ.channel ++ σ.pending.map Prod.snd) t) :=
      d.serve_same hleader hclient (isData_of_isWrite hwrite) h.agree.symm
        (fun r hr => ⟨hsteady r hr, hok r hr⟩) env (.plain 0)
    by_cases hb : broadcasts d.leader frame (d.onLeader env frame σ.leader).reply = true
    · rw [if_pos hb] at hserve
      refine ⟨?_, ?_⟩
      · intro f hf
        simp only [if_pos hb, List.map_append, ← List.append_assoc, List.mem_append] at hf
        rcases hf with hf | hf
        · exact h.ordered f (List.mem_append.mpr hf)
        · obtain rfl : f = frame := by simpa using hf
          exact isOrdered_replica hleader hordered
      · simp only [if_pos hb, List.map_append, ← List.append_assoc]
        rw [replay_append]
        exact hserve.symm
    · rw [if_neg hb] at hserve
      refine ⟨?_, ?_⟩
      · simpa only [if_neg hb] using h.ordered
      · simpa only [if_neg hb] using hserve.symm
  · cases hstep

theorem orderInv_broadcast {c : Client} (h : d.OrderInv t σ) (ht : t.NoExpiry)
    (hok : d.InOrder t σ (.broadcast c)) (hstep : d.orderStep σ (.broadcast c) = some τ) :
    d.OrderInv t τ := by
  have hsplit := σ.overtaken_append c
  simp only [orderStep] at hstep
  simp only [InOrder] at hok
  split at hstep
  · cases hstep
  · next c' f later hfrom =>
    obtain rfl := Option.some.inj hstep
    rw [hfrom] at hok hsplit
    have hordered := h.ordered
    have hagree := h.agree
    rw [← hsplit] at hordered hagree
    set earlier := (σ.overtaken c).map Prod.snd with hearlier
    set r := d.replay (.plain 0) σ.channel t with hr
    simp only [List.map_append, List.map_cons, ← hearlier] at hordered hagree
    refine ⟨?_, ?_⟩
    · intro g hg
      simp only [List.map_append, ← hearlier, List.mem_append, List.mem_singleton] at hg
      refine hordered g ?_
      simp only [List.mem_append, List.mem_cons]
      tauto
    · have hsub (fs : List Frame) (hfs : ∀ g ∈ fs, g ∈ σ.channel ++
          (earlier ++ f :: later.map Prod.snd)) : ∀ g ∈ fs, isOrdered d.replica g = true :=
        fun g hg => hordered g (hfs g hg)
      have hrexp : r.NoExpiry :=
        (replay_same_of_isOrdered (hsub _ (by simp +contextual)) (Same.refl ht) _).left
      have hleft := (replay_same_of_isOrdered (hsub (f :: earlier) (by simp +contextual))
        (Same.refl hrexp) (.plain 0)).left
      have hright := (replay_same_of_isOrdered (hsub (earlier ++ [f]) (by grind))
        (Same.refl hrexp) (.plain 0)).left
      have hswap : (d.replay (.plain 0) (f :: earlier) r).Same
          (d.replay (.plain 0) (earlier ++ [f]) r) := ⟨hok, hleft, hright⟩
      have hlater := replay_same_of_isOrdered (hsub (later.map Prod.snd) (by simp +contextual))
        hswap (.plain 0)
      have hnew : σ.channel ++ [f] ++ (earlier ++ later.map Prod.snd) =
          σ.channel ++ ((f :: earlier) ++ later.map Prod.snd) := by simp
      have hold : σ.channel ++ (earlier ++ f :: later.map Prod.snd) =
          σ.channel ++ ((earlier ++ [f]) ++ later.map Prod.snd) := by simp
      simp only [List.map_append, ← hearlier]
      rw [hold, replay_append, replay_append, ← hr] at hagree
      rw [hnew, replay_append, replay_append, ← hr]
      exact hlater.trans hagree

theorem orderInv_run (hleader : d.leader.isLeader = true)
    (hclient : d.leader.isReplicaReplay = false) (h : t.Same s)
    (hrun : Runs.Run d.orderStep (d.InOrder t) (.start s) σ) : d.OrderInv t σ := by
  refine hrun.invariant (fun σ ev τ hinv hok hstep => ?_) (orderInv_start h)
  cases ev with
  | dispatch c env frame => exact orderInv_dispatch hleader hclient hinv hok hstep
  | broadcast c => exact orderInv_broadcast hinv h.left hok hstep

/-- In every interleaving of two clients where no command is caught in the middle and every
broadcast commutes with those it overtakes, a replica that began with the contents of the leader
and executes what was broadcast has the contents of the leader when nothing is pending. And if
the client that dispatched second broadcasts first, the replica ends with them exactly if the
two commute. -/
theorem replica_follows_order (d : Deployment) (hleader : d.leader.isLeader = true)
    (hclient : d.leader.isReplicaReplay = false) {s t : Store} (h : t.Same s) {σ : OrderState}
    (hrun : Runs.Run d.orderStep (d.InOrder t) (.start s) σ) (envAt : ℕ → Env) :
    (σ.pending = [] →
      (applyLog d.replica nowhere envAt 0 σ.channel t).contents = σ.leader.contents) ∧
    ∀ c c' g f σ₁ σ₂, c ≠ c' → σ.pending = [(c, g), (c', f)] →
      d.orderStep σ (.broadcast c') = some σ₁ → d.orderStep σ₁ (.broadcast c) = some σ₂ →
      ((applyLog d.replica nowhere envAt 0 σ₂.channel t).contents = σ₂.leader.contents ↔
        d.InOrder t σ (.broadcast c')) := by
  have hinv := orderInv_run hleader hclient h hrun
  have hordered := hinv.ordered
  have hagree := hinv.agree
  refine ⟨fun hpending => ?_, fun c c' g f σ₁ σ₂ hne hpending hstep₁ hstep₂ => ?_⟩
  · simp only [hpending, List.map_nil, List.append_nil] at hordered hagree
    have hreplay := applyLog_same_replay hordered (Same.refl h.left) envAt (.plain 0)
    exact hreplay.contents.trans hagree.contents
  · simp only [hpending, List.map_cons, List.map_nil] at hordered hagree
    have hfrom : σ.fromClient c' = [(c', f)] := by
      simp [OrderState.fromClient, hpending, List.dropWhile, hne]
    have hover : σ.overtaken c' = [(c, g)] := by
      simp [OrderState.overtaken, hpending, List.takeWhile, hne]
    simp only [orderStep, hfrom, hover, List.append_nil, Option.some.injEq] at hstep₁
    subst hstep₁
    have hfrom₁ : OrderState.fromClient ⟨σ.leader, [(c, g)], σ.channel ++ [f]⟩ c = [(c, g)] := by
      simp [OrderState.fromClient, List.dropWhile]
    have hover₁ : OrderState.overtaken ⟨σ.leader, [(c, g)], σ.channel ++ [f]⟩ c = [] := by
      simp [OrderState.overtaken, List.takeWhile]
    simp only [orderStep, hfrom₁, hover₁, List.append_nil, Option.some.injEq] at hstep₂
    subst hstep₂
    have hboth : ∀ x ∈ σ.channel ++ [f] ++ [g], isOrdered d.replica x = true :=
      fun x hx => hordered x (by grind)
    have hreplay := applyLog_same_replay hboth (Same.refl h.left) envAt (.plain 0)
    simp only [InOrder, hfrom, hover, List.map_cons, List.map_nil]
    rw [hreplay.contents, ← hagree.contents, List.append_assoc,
      replay_append (.plain 0) σ.channel ([f] ++ [g]), replay_append (.plain 0) σ.channel [g, f]]
    rfl

end Deployment

section Failing

/-- The string at `k` on the leader, and on a replica that has executed what was broadcast. -/
def bothSides (σ : OrderState) : Option Bytes × Option Bytes :=
  (stringAt σ.leader "k", stringAt (smallDeployment.replay (.plain 0) σ.channel ∅) "k")

/-- Two clients set the same key, and the second is broadcast first. -/
def crossingSets : List OrderEvent :=
  [.dispatch .first (.plain 0) (.command ["SET", "k", "1"]),
    .dispatch .second (.plain 0) (.command ["SET", "k", "2"]), .broadcast .second,
    .broadcast .first]

/-- The leader ends with the second value, and its replica with the first. -/
theorem sets_cross : ∃ σ, Runs.Run smallDeployment.orderStep (fun _ _ => True) (.start ∅) σ ∧
    σ.pending = [] ∧ (applyLog smallDeployment.replica Deployment.nowhere (fun _ => .plain 0) 0
      σ.channel ∅).contents ≠ σ.leader.contents := by
  have hrun : (Runs.exec smallDeployment.orderStep (fun _ _ => True) (.start ∅)
      crossingSets).any (fun σ => σ.pending.isEmpty && (bothSides σ).1 ≠ (bothSides σ).2) =
        true := by
    decide
  obtain ⟨σ, hσ, hp⟩ := Runs.exists_run_of_exec hrun
  rw [Bool.and_eq_true, decide_eq_true_eq, List.isEmpty_iff] at hp
  refine ⟨σ, hσ, hp.1, fun heq => hp.2 ?_⟩
  rw [← Deployment.replay_eq_applyLog] at heq
  exact (stringAt_congr heq "k").symm

/-- `INCR k`. -/
def incrK : Frame := .command ["INCR", "k"]

/-- Two clients increment the same key, and the second is broadcast first. -/
def crossingIncrs : List OrderEvent :=
  [.dispatch .first (.plain 0) incrK, .dispatch .second (.plain 0) incrK, .broadcast .second,
    .broadcast .first]

/-- Only `INCR k`, which is no move and no `ZADD`, and commutes with itself. -/
def onlyIncrs (σ : OrderState) : OrderEvent → Bool
  | .dispatch _ _ frame =>
    match requestOf smallDeployment.leader frame with
    | some (.incrby _ _ _) => true
    | _ => false
  | .broadcast _ => σ.pending.all fun p => p.2 = incrK

theorem inOrder_of_onlyIncrs {t : Store} {σ : OrderState} {ev : OrderEvent}
    (h : onlyIncrs σ ev = true) : smallDeployment.InOrder t σ ev := by
  cases ev with
  | dispatch c env frame =>
    intro r hr
    rw [onlyIncrs, hr] at h
    cases r with
    | incrby => exact id
    | _ => cases h
  | broadcast c =>
    simp only [Deployment.InOrder]
    split
    · trivial
    · next c' f later hfrom =>
      have hsplit := σ.overtaken_append c
      rw [hfrom] at hsplit
      simp only [onlyIncrs, ← hsplit, List.all_append, List.all_cons, Bool.and_eq_true,
        decide_eq_true_eq, List.all_eq_true] at h
      -- All the frames are the same, so the two lists are.
      have hearlier : (σ.overtaken c).map Prod.snd =
          List.replicate (σ.overtaken c).length incrK :=
        List.eq_replicate_iff.mpr ⟨List.length_map .., by simpa using fun b a hab => h.1 (a, b) hab⟩
      rw [hearlier, h.2.1, ← List.replicate_succ, ← List.replicate_succ']

/-- The crossing increments lead to the same number on both sides. -/
theorem incrs_cross : ∃ σ : OrderState, σ.pending = [] ∧
    stringAt σ.leader "k" = some (Utf8.toBytes "2") ∧
    (applyLog smallDeployment.replica Deployment.nowhere (fun _ => .plain 0) 0
      σ.channel ∅).contents = σ.leader.contents := by
  have hrun : (Runs.exec smallDeployment.orderStep (fun σ ev => onlyIncrs σ ev = true) (.start ∅)
      crossingIncrs).any (fun σ => σ.pending.isEmpty &&
        stringAt σ.leader "k" = some (Utf8.toBytes "2")) = true := by
    decide
  obtain ⟨σ, hσ, hp⟩ := Runs.exists_run_of_exec hrun
  rw [Bool.and_eq_true, decide_eq_true_eq, List.isEmpty_iff] at hp
  exact ⟨σ, hp.1, hp.2, (Deployment.replica_follows_order smallDeployment rfl rfl Store.same_empty
    (hσ.mono fun _ _ => inOrder_of_onlyIncrs) _).1 hp.1⟩

end Failing

end LoonyRedis
