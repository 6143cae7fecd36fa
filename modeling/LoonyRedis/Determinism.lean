import LoonyRedis.FullSync

/-!
# Replaying the same commands on two nodes

The Raft log and the replication stream carry commands, not their effects : each node
executes them by itself, with its own time, its own hash tables and its own random numbers.
Nodes stay the same if what a command does to a store, and answers, does not depend on
these. For a write this fails in one case only, an `SPOP` from a set with several members
(`Request.Draws`), where each node removes members of its own choice.

`replay_agrees_iff` states this for one command and for whole logs and streams.
-/

namespace LoonyRedis

open Std Store

/-! ## What a write asks -/

namespace Request

/-- What write commands ask of the store. -/
def isWrite : Request → Bool
  | expire _ _ | set _ _ _ _ _ | spop _ _ => true
  | r => r.isDeterministicWrite

/-- Sets the time at which a key expires. -/
def setsExpiry : Request → Bool
  | expire _ _ | set _ _ (some _) _ _ => true
  | _ => false

/-- Takes random members from a set that has several. -/
def Draws (s : Store) : Request → Prop
  | spop key count =>
    1 ≤ count.getD 1 ∧ ∃ e t, s[key]? = some e ∧ Kind.set.view e.value = some t ∧ 2 ≤ t.len
  | _ => False

end Request

/-- Whatever request a handler makes has `P`. -/
def Reading.All (P : Request → Prop) : Reading → Prop
  | .ok r => P r
  | .error _ => True

theorem Reading.all_bind {P : Request → Prop} {α : Type} {x : Except Frame α} {k : α → Reading}
    (h : ∀ a, All P (k a)) : All P (x >>= k) := by
  cases x with
  | error f => trivial
  | ok a => exact h a

/-- What holds of the requests of each handler holds of what is asked under its name. -/
theorem Reading.of_readCommand {P : String → Request → Prop} {ctx : CommandContext}
    {args : List Frame} (htable : ∀ p ∈ commandTable ctx, All (P p.1) (p.2 args)) {name : String}
    {r : Request} (h : readCommand ctx name args = .ok r) : P name r := by
  unfold readCommand at h
  split at h
  · next handler hlookup =>
    obtain ⟨l, l', hl, -⟩ := List.lookup_eq_some_iff.mp hlookup
    have hmem : (name, handler) ∈ commandTable ctx := by rw [hl]; simp
    have hall : All (P name) (handler args) := htable _ hmem
    rw [h] at hall
    exact hall
  · cases h

section Readings

open Reading

theorem all_debug {P : Request → Prop} (hanswer : ∀ f, P (.answer f))
    (hobject : ∀ key, P (.debugObject key)) {ctx : CommandContext} {args : List Frame} :
    All P (cmdDebug ctx args) := by
  refine all_bind fun sub => ?_
  split
  · exact hanswer _
  · exact all_bind fun key => hobject key
  · exact hanswer _
  · exact hanswer _
  · exact hanswer _
  · exact hanswer _
  · exact hanswer _
  · trivial

/-- The handlers of write commands make only requests that are writes, and the others none
of them. -/
theorem isWrite_commandTable (ctx : CommandContext) (args : List Frame) :
    ∀ p ∈ commandTable ctx, All (fun r => r.isWrite = isWrite p.1) (p.2 args) := by
  -- Each handler reads a number of arguments and makes its request.
  have one {P : Request → Prop} {α : Type} {x : Except Frame α} {k : α → Reading}
      (h : ∀ a, All P (k a)) : All P (x >>= k) := all_bind h
  have two {P : Request → Prop} {α β : Type} {x : Except Frame α} {y : α → Except Frame β}
      {k : α → β → Reading} (h : ∀ a b, All P (k a b)) : All P (x >>= fun a => y a >>= k a) :=
    one fun a => one (h a)
  have three {P : Request → Prop} {α β γ : Type} {x : Except Frame α} {y : α → Except Frame β}
      {z : α → β → Except Frame γ} {k : α → β → γ → Reading} (h : ∀ a b c, All P (k a b c)) :
      All P (x >>= fun a => y a >>= fun b => z a b >>= k a b) :=
    two fun a b => one (h a b)
  simp only [commandTable, List.forall_mem_cons]
  simp only [isWrite, writeCommands, List.mem_cons, List.not_mem_nil, String.reduceEq, or_false,
    or_true, or_self, decide_true, decide_false]
  exact ⟨rfl, two fun _ _ => rfl,
    rfl, rfl,
    rfl, rfl,
    rfl,
    rfl, all_debug (fun _ => rfl) fun _ => rfl,
    one fun _ => rfl, one fun _ => rfl, two fun _ _ => rfl, three fun _ _ _ => rfl,
    three fun _ _ _ => rfl, two fun _ _ => rfl, two fun _ _ => rfl, two fun _ _ => rfl,
    rfl, rfl,
    rfl, rfl,
    two fun _ _ => rfl, three fun _ _ _ => rfl, one fun _ => rfl, one fun _ => rfl,
    two fun _ _ => rfl, three fun _ _ _ => rfl, two fun _ _ => rfl,
    two fun _ _ => rfl,
    three fun _ _ _ => rfl, three fun _ _ _ => rfl, three fun _ _ _ => rfl,
    three fun _ _ _ => rfl,
    two fun _ _ => rfl, two fun _ _ => rfl, two fun _ _ => rfl, two fun _ _ => rfl,
    two fun _ _ => rfl, two fun _ _ => two fun _ _ => rfl, three fun _ _ _ => rfl,
    two fun _ _ => two fun _ _ => rfl,
    three fun _ _ _ => three fun _ _ _ => rfl, two fun _ _ => two fun _ _ => rfl,
    two fun _ _ => two fun _ _ => rfl, three fun _ _ _ => two fun _ _ => two fun _ _ => rfl,
    two fun _ _ => rfl, two fun _ _ => rfl, three fun _ _ _ => rfl, two fun _ _ => rfl,
    two fun _ _ => rfl, two fun _ _ => rfl, two fun _ _ => rfl, three fun _ _ _ => rfl,
    two fun _ _ => rfl, two fun _ _ => rfl, two fun _ _ => two fun _ _ => rfl,
    two fun _ _ => two fun _ _ => rfl,
    two fun _ _ => two fun _ _ => rfl,
    two fun _ _ => rfl, two fun _ _ => rfl, three fun _ _ _ => rfl, two fun _ _ => rfl,
    two fun _ _ => rfl, two fun _ _ => two fun _ _ => rfl, two fun _ _ => rfl,
    two fun _ _ => rfl,
    one fun _ => rfl, one fun _ => rfl, one fun _ => rfl,
    two fun _ _ => rfl, two fun _ _ => rfl,
    two fun _ _ => rfl,
    three fun _ _ _ => rfl, three fun _ _ _ => rfl, three fun _ _ _ => rfl,
    three fun _ _ _ => rfl,
    two fun _ _ => rfl, two fun _ _ => two fun _ _ => rfl, two fun _ _ => two fun _ _ => rfl,
    two fun _ _ => rfl,
    two fun _ _ => two fun _ _ => rfl, two fun _ _ => two fun _ _ => rfl,
    two fun _ _ => two fun _ _ => rfl,
    two fun _ _ => two fun _ _ => rfl, two fun _ _ => rfl, two fun _ _ => rfl,
    two fun _ _ => two fun _ _ => rfl, two fun _ _ => two fun _ _ => rfl,
    fun _ h => False.elim h⟩

/-- What is asked under a name is a write exactly if the name is one of a write command. -/
theorem isWrite_of_readCommand {ctx : CommandContext} {name : String} {args : List Frame}
    {r : Request} (h : readCommand ctx name args = .ok r) : r.isWrite = isWrite name :=
  @of_readCommand (fun name r => r.isWrite = isWrite name) _ _ (isWrite_commandTable ctx args) _ _ h

end Readings

/-! ## One command -/

namespace Store

variable {s t : Store}

/-- An expiry is not part of the contents. -/
theorem contents_expire (now : ℕ) (k : String) (ttl : ℕ) (s : Store) :
    (s.expire now k ttl).2.contents = s.contents := by
  unfold expire
  cases hs : s[k]? with
  | none => rfl
  | some e =>
    simp only
    split
    · rfl
    · rw [contents_insert]
      ext k' : 1
      split
      · next hk => simp [Store.contents, ← hk, hs]
      · rfl

theorem Same.expire_eq (h : Same s t) (now now' : ℕ) (k : String) (ttl : ℕ) :
    (s.expire now k ttl).1 = (t.expire now' k ttl).1 := by
  unfold expire
  rcases h.lookup k with ⟨hs, ht⟩ | ⟨v, w, hs, ht, -⟩
  · rw [hs, ht]
  · rw [hs, ht]
    rfl

end Store

namespace Request

variable {r : Request} {s t : Store}

/-- A write that neither draws nor sets an expiry answers the same on stores that are the
same, and keeps them so. -/
theorem run_agree_of_not_draws (hr : r.isWrite = true) (hexp : r.setsExpiry = false)
    (h : s.Same t) (hdraws : ¬ r.Draws s) (ctx ctx' : CommandContext) (env env' : Env) :
    (r.run ctx env s).Agree (r.run ctx' env' t) := by
  cases r with
  | spop key count =>
    have hpops : (s.spop env key (count.getD 1)).1 = (t.spop env' key (count.getD 1)).1 ∧
        Store.Same (s.spop env key (count.getD 1)).2 (t.spop env' key (count.getD 1)).2 := by
      refine h.update Kind.respects_set fun e a b hkey hv hab => ?_
      rw [Kind.same_set] at hab ⊢
      have hfew : count.getD 1 = 0 ∨ a.len < 2 := by
        by_contra hcon
        rw [not_or, Nat.not_lt] at hcon
        exact hdraws ⟨Nat.pos_of_ne_zero hcon.1, e, a, hkey, hv, hcon.2⟩
      obtain ⟨hpop, hleft⟩ := RedisSet.spop_congr hab hfew env env'
      exact ⟨congrArg Except.ok hpop, hleft⟩
    exact agree_of_eq hpops.1 hpops.2
  | set key val ttl nx xx =>
    cases ttl with
    | some ttl => cases hexp
    | none => exact run_agree rfl h ctx ctx' env env'
  | expire => cases hexp
  | _ =>
    refine run_agree ?_ h ctx ctx' env env'
    exact hr

/-- A write that sets an expiry answers the same, and leaves the same contents. -/
theorem run_of_setsExpiry (hexp : r.setsExpiry = true) (h : s.Same t)
    (ctx ctx' : CommandContext) (env env' : Env) :
    (r.run ctx env s).reply = (r.run ctx' env' t).reply ∧
      (r.run ctx env s).store.contents = (r.run ctx' env' t).store.contents := by
  cases r with
  | expire key ttl =>
    refine ⟨congrArg Frame.flag (h.expire_eq env.now env'.now key ttl), ?_⟩
    simp only [run, contents_expire, h.contents]
  | set key val ttl nx xx =>
    simp only [run, h.exists_eq env.now env'.now key]
    split
    · exact ⟨rfl, h.contents⟩
    · split
      · exact ⟨rfl, h.contents⟩
      · exact ⟨rfl, by simp only [Store.set, contents_insert, h.contents]⟩
  | _ => cases hexp

end Request

/-- A shuffle that does not begin with `x` if it can. -/
def avoid (x : Bytes) : List Bytes → List Bytes
  | [] => []
  | a :: l => if a = x then l ++ [a] else a :: l

theorem avoid_perm (x : Bytes) (l : List Bytes) : (avoid x l).Perm l := by
  cases l with
  | nil => exact List.Perm.refl _
  | cons a l =>
    rw [avoid]
    split
    · exact List.perm_append_singleton a l
    · exact List.Perm.refl _

theorem head?_avoid {x : Bytes} {l : List Bytes} (hnd : l.Nodup) (hlen : 2 ≤ l.length) :
    ∃ y, y ≠ x ∧ (avoid x l).head? = some y := by
  match l, hlen with
  | a :: b :: l, _ =>
    rw [avoid]
    split
    · next hax =>
      refine ⟨b, ?_, rfl⟩
      rintro rfl
      simp [hax] at hnd
    · next hax => exact ⟨a, hax, rfl⟩

/-- Draws that avoid `x`. -/
def Env.avoiding (x : Bytes) : Env where
  __ := Env.plain 0
  shuffle := avoid x
  shuffle_perm := avoid_perm x

/-- The first member that is popped. -/
theorem RedisSet.head?_spop {env : Env} {t : RedisSet} {count : ℕ} (hcount : 1 ≤ count)
    (hlen : t.len ≠ 0) : (t.spop env count).1.head? = (env.shuffle (t.members env)).head? := by
  have hne : t.members env ≠ [] := fun h => hlen (members_eq_nil.mp h)
  have hpos : min count (t.members env).length ≠ 0 := by
    rw [length_members]
    omega
  rw [spop, if_neg hne, List.head?_take, if_neg hpos]

theorem poppedFrame_ne {withCount : Bool} {v w : List Bytes} (h : v.head? ≠ w.head?) :
    poppedFrame withCount List.head? v ≠ poppedFrame withCount List.head? w := by
  cases withCount with
  | true => exact fun heq => h (congrArg List.head? (Frame.bulks_injective heq))
  | false => exact fun heq => h (Frame.bulk.inj heq)

/-- A command that draws answers differently if the nodes draw differently. -/
theorem Request.exists_reply_ne {r : Request} {s t : Store} (h : s.Same t) (hdraws : r.Draws s)
    (ctx ctx' : CommandContext) :
    ∃ env env', (r.run ctx env s).reply ≠ (r.run ctx' env' t).reply := by
  cases r with
  | spop key count =>
    obtain ⟨hcount, e, a, hkey, hv, hlen⟩ := hdraws
    rcases h.lookup key with ⟨hs, -⟩ | ⟨v, w, hs, ht, hvw⟩
    · rw [hs] at hkey
      cases hkey
    rw [hs, Option.some.injEq] at hkey
    subst hkey
    rcases Kind.respects_set v w hvw with ⟨hnone, -⟩ | ⟨a', b, ha, hb, hab⟩
    · rw [hnone] at hv
      cases hv
    rw [ha, Option.some.injEq] at hv
    subst hv
    rw [Kind.same_set] at hab
    have hlen' : 2 ≤ b.len := RedisSet.len_congr hab ▸ hlen
    -- The other node avoids the member that comes first on this one.
    obtain ⟨x, hx⟩ : ∃ x, (a'.members (.plain 0)).head? = some x := by
      have hne : a'.members (.plain 0) ≠ [] := by
        rw [Ne, RedisSet.members_eq_nil]
        omega
      exact ⟨_, List.head?_eq_some_head hne⟩
    obtain ⟨y, hyx, hy⟩ := @head?_avoid x _ (RedisSet.nodup_members (.avoiding x) b)
      (by rw [RedisSet.length_members]; exact hlen')
    refine ⟨.plain 0, .avoiding x, ?_⟩
    have hspop (env : Env) : s.spop env key (count.getD 1) = (.ok (a'.spop env (count.getD 1)).1,
        s.insert key ⟨.set (a'.spop env (count.getD 1)).2, none⟩) := Store.update_some hs ha
    have hspop' (env : Env) : t.spop env key (count.getD 1) = (.ok (b.spop env (count.getD 1)).1,
        t.insert key ⟨.set (b.spop env (count.getD 1)).2, none⟩) := Store.update_some ht hb
    simp only [Request.run, Outcome.change, Outcome.of, hspop, hspop']
    refine poppedFrame_ne ?_
    rw [RedisSet.head?_spop hcount (by omega), RedisSet.head?_spop hcount (by omega)]
    change (a'.members (.plain 0)).head? ≠ (avoid x (b.members (.avoiding x))).head?
    rw [hx, hy]
    exact fun heq => hyx (Option.some.inj heq).symm
  | _ => exact hdraws.elim

/-! ## Frames -/

section Frames

variable {frame : Frame}

/-- A write is neither `CLUSTER` nor `MIGRATE`. -/
theorem local_of_isWrite {name : String} (h : isWrite name = true) :
    ¬ (name = "CLUSTER" ∨ name = "MIGRATE") := by
  rintro (rfl | rfl) <;> simp [isWrite, writeCommands] at h

theorem isData_of_isWrite (h : (frameName frame).any isWrite = true) : isData frame = true := by
  unfold isData
  split
  · next args =>
    split
    · next cmd hcmd =>
      have hname : isWrite (commandName cmd) = true := by simpa [frameName, hcmd] using h
      simpa using local_of_isWrite hname
    · rfl
  · rfl

/-- A node that does a write itself : it replays it, or it is a leader without Raft and
cluster. -/
def CommandContext.DoesWrites (ctx : CommandContext) : Prop :=
  ctx.isReplicaReplay = true ∨ ctx.raft = none ∧ ctx.cluster = none ∧ ctx.isLeader = true

theorem route_of_doesWrites (hwrite : (frameName frame).any isWrite = true) :
    ∃ name args, isWrite name = true ∧ ∀ ctx : CommandContext, ctx.DoesWrites →
      route ctx frame = .dispatch name args := by
  obtain ⟨name, hname, hwrite⟩ := (Option.any_eq_true ..).mp hwrite
  unfold frameName at hname
  split at hname
  · next args =>
    obtain ⟨cmd, hcmd, rfl⟩ := Option.map_eq_some_iff.mp hname
    refine ⟨commandName cmd, args, hwrite, fun ctx hctx => ?_⟩
    have hargs : args ≠ [] := by
      rintro rfl
      cases hcmd
    have hlocal := local_of_isWrite hwrite
    rw [route.eq_2 _ _ hargs]
    rcases hctx with hreplay | ⟨hraft, hcluster, hleader⟩
    · simp [hcmd, routeCommand, hreplay, routeHere, hlocal]
    · simp [hcmd, routeCommand_single hraft hcluster, hleader, routeHere, hlocal]
  · cases hname

/-- On all these nodes a write makes the same request, or is answered with the same frame. -/
theorem execute_of_doesWrites (hwrite : (frameName frame).any isWrite = true) :
    (∃ r : Request, r.isWrite = true ∧ ∀ ctx : CommandContext, ctx.DoesWrites →
      requestOf ctx frame = some r ∧
      ∀ elsewhere env s, execute ctx elsewhere env frame s = r.run ctx env s) ∨
    ∃ f, ∀ ctx : CommandContext, ctx.DoesWrites → requestOf ctx frame = none ∧
      ∀ elsewhere env s, execute ctx elsewhere env frame s = ⟨f, s, []⟩ := by
  obtain ⟨name, args, hname, hroute⟩ := route_of_doesWrites hwrite
  have hdebug : name ≠ "DEBUG" := by
    rintro rfl
    simp [isWrite, writeCommands] at hname
  have hread (ctx : CommandContext) :
      readCommand ctx name args = readCommand .standalone name args :=
    Deployment.readCommand_congr ctx .standalone hdebug args
  cases hr : readCommand .standalone name args with
  | ok r =>
    refine Or.inl ⟨r, (isWrite_of_readCommand hr).trans hname, fun ctx hctx => ⟨?_, ?_⟩⟩
    · simp [requestOf, hroute ctx hctx, hread, hr, Except.toOption]
    · intro elsewhere env s
      simp [execute, hroute ctx hctx, dispatch, hread, hr]
  | error f =>
    refine Or.inr ⟨f, fun ctx hctx => ⟨?_, ?_⟩⟩
    · simp [requestOf, hroute ctx hctx, hread, hr, Except.toOption]
    · intro elsewhere env s
      simp [execute, hroute ctx hctx, dispatch, hread, hr]

/-- What a leader is asked under the name of a write command is a write, and the other way
round. -/
theorem isWrite_of_requestOf {ctx : CommandContext} (hraft : ctx.raft = none)
    (hcluster : ctx.cluster = none) {r : Request} (hr : requestOf ctx frame = some r) :
    (frameName frame).any isWrite = r.isWrite := by
  unfold requestOf at hr
  split at hr
  · next name args hroute =>
    obtain ⟨rfl, -, cmd, hcmd, rfl, -⟩ := Deployment.route_eq_dispatch hraft hcluster hroute
    cases hread : readCommand ctx (commandName cmd) args with
    | error f =>
      rw [hread] at hr
      cases hr
    | ok r' =>
      rw [hread] at hr
      obtain rfl : r' = r := Option.some.inj hr
      simp [frameName, hcmd, isWrite_of_readCommand hread]
  · cases hr

end Frames

/-! ## Logs and streams -/

section Runs

variable (ctx : CommandContext) (elsewhere : Route → Store → Outcome) (envAt : ℕ → Env)

/-- A leader serves its clients : the store afterwards, and the stream to its replicas. -/
def serveAll : ℕ → List Frame → Store → Store × List Frame
  | _, [], s => (s, [])
  | i, f :: fs, s =>
    let o := execute ctx elsewhere (envAt i) f s
    let rest := serveAll (i + 1) fs o.store
    (rest.1, if broadcasts ctx f o.reply then f :: rest.2 else rest.2)

/-- Every request of a run has `ok` on the store it is made to. -/
def Along (ok : Store → Request → Prop) : ℕ → List Frame → Store → Prop
  | _, [], _ => True
  | i, f :: fs, s =>
    (∀ r, requestOf ctx f = some r → ok s r) ∧
      Along ok (i + 1) fs (execute ctx elsewhere (envAt i) f s).store

end Runs

namespace Request

/-- Neither draws members nor sets an expiry. -/
def Steady (s : Store) (r : Request) : Prop := ¬ r.Draws s ∧ r.setsExpiry = false

/-- Without expiries only writes change the store. -/
theorem run_store_of_not_isWrite {r : Request} (hr : r.isWrite = false) {s : Store}
    (hs : s.NoExpiry) (ctx : CommandContext) (env : Env) : (r.run ctx env s).store = s := by
  cases r with
  | get key | strlen key => exact get_of_noExpiry hs env.now key
  | mget ks =>
    clear hr
    simp only [run]
    induction ks with
    | nil => rfl
    | cons k ks ih =>
      cases k with
      | none => exact ih
      | some k =>
        simp only [mgetLoop, get_of_noExpiry hs]
        exact ih
  | answer | info | debugObject | existsKeys | type | ttl | pttl | keys | dbsize | hmget => rfl
  | llen | lrange | lindex | hget | hgetall | hlen | hexists | hkeys | hvals | smembers | sismember
  | scard | srandmember | combine | zscore | zrank | zrevrank | zcard | zcount | zrange
  | zrangebyscore => exact store_of
  | _ => cases hr

end Request

variable {elsewhere elsewhere' : Route → Store → Outcome} {envAt envAt' : ℕ → Env}

/-- Nodes that apply the same log stay the same. -/
theorem applyLog_same {ctx ctx' : CommandContext} (hctx : ctx.DoesWrites)
    (hctx' : ctx'.DoesWrites) :
    ∀ {log : List Frame} {i : ℕ} {s t : Store}, s.Same t →
      (∀ f ∈ log, (frameName f).any isWrite = true) →
      Along ctx elsewhere envAt (fun s r => r.Steady s) i log s →
      (applyLog ctx elsewhere envAt i log s).Same (applyLog ctx' elsewhere' envAt' i log t)
  | [], _, _, _, h, _, _ => h
  | f :: fs, i, s, t, h, hwrite, halong => by
    rw [List.forall_mem_cons] at hwrite
    obtain ⟨hstep, hrest⟩ := halong
    rw [applyLog, applyLog]
    refine applyLog_same hctx hctx' ?_ hwrite.2 hrest
    rcases execute_of_doesWrites hwrite.1 with ⟨r, hr, hexec⟩ | ⟨g, hexec⟩
    · obtain ⟨hreq, hrun⟩ := hexec ctx hctx
      obtain ⟨hdraws, hexp⟩ := hstep r hreq
      rw [hrun, (hexec ctx' hctx').2]
      exact (Request.run_agree_of_not_draws hr hexp h hdraws _ _ _ _).store
    · rw [(hexec ctx hctx).2, (hexec ctx' hctx').2]
      exact h

namespace Deployment

variable (d : Deployment)

/-- One frame that the leader serves, and its replica executes if it is broadcast. -/
theorem serve_same (hleader : d.leader.isLeader = true)
    (hclient : d.leader.isReplicaReplay = false) {f : Frame} (hdata : isData f = true)
    {s t : Store} (h : s.Same t)
    (hok : ∀ r, requestOf d.leader f = some r → r.Steady s ∧ ¬ r.Halfway s) (env env' : Env) :
    (execute d.leader nowhere env f s).store.Same
      (if broadcasts d.leader f (execute d.leader nowhere env f s).reply then
        (execute d.replica nowhere env' f t).store else t) := by
  have hdoes : d.leader.DoesWrites := Or.inr ⟨d.leader_raft, d.leader_cluster, hleader⟩
  have hdoes' : d.replica.DoesWrites := Or.inl d.replica_replay
  cases hwrite : (frameName f).any isWrite with
  | false =>
    have hquiet (reply : Frame) : broadcasts d.leader f reply = false := by
      simp [broadcasts, hwrite]
    rw [hquiet, if_neg Bool.false_ne_true]
    rcases execute_of_isData d.leader_raft d.leader_cluster hdata nowhere env with
      ⟨r, hr, hrun⟩ | ⟨-, g, hg⟩
    · have hread := (isWrite_of_requestOf d.leader_raft d.leader_cluster hr).symm.trans hwrite
      rw [hrun, Request.run_store_of_not_isWrite hread h.left]
      exact h
    · rw [hg]
      exact h
  | true =>
    rcases execute_of_doesWrites hwrite with ⟨r, hr, hexec⟩ | ⟨g, hexec⟩
    · obtain ⟨hreq, hrun⟩ := hexec d.leader hdoes
      obtain ⟨⟨hdraws, hexp⟩, hhalf⟩ := hok r hreq
      rw [hrun, (hexec d.replica hdoes').2]
      split
      · exact (Request.run_agree_of_not_draws hr hexp h hdraws _ _ _ _).store
      · next hquiet =>
        -- Only an error is not broadcast.
        have herr : (r.run d.leader env s).reply.isError = true := by
          simpa [broadcasts, hwrite, hclient, hleader, d.leader_raft] using hquiet
        rw [Request.run_store_of_isError hhalf herr]
        exact h
    · rw [(hexec d.leader hdoes).2, (hexec d.replica hdoes').2]
      split
      · exact h
      · exact h

/-- A replica that applies the stream of the leader stays the same as the leader. -/
theorem serveAll_same (hleader : d.leader.isLeader = true)
    (hclient : d.leader.isReplicaReplay = false) :
    ∀ {frames : List Frame} {i j : ℕ} {s t : Store}, s.Same t →
      (∀ f ∈ frames, isData f = true) →
      Along d.leader nowhere envAt (fun s r => r.Steady s ∧ ¬ r.Halfway s) i frames s →
      (serveAll d.leader nowhere envAt i frames s).1.Same
        (applyLog d.replica nowhere envAt' j (serveAll d.leader nowhere envAt i frames s).2 t)
  | [], _, _, _, _, h, _, _ => h
  | f :: fs, i, j, s, t, h, hdata, halong => by
    rw [List.forall_mem_cons] at hdata
    obtain ⟨hstep, hrest⟩ := halong
    have hone := d.serve_same hleader hclient hdata.1 h hstep (envAt i) (envAt' j)
    simp only [serveAll]
    split at hone
    · next hb =>
      rw [if_pos hb, applyLog]
      exact serveAll_same hleader hclient hone hdata.2 hrest
    · next hb =>
      rw [if_neg hb]
      exact serveAll_same hleader hclient hone hdata.2 hrest

end Deployment

/-- On stores with the same contents and no expiries, two nodes that replay a write answer the
same and leave the same contents, whatever each of them draws, exactly if the write does not
pop random members of a set that has several. So nodes that apply the same log hold the same
data, if no entry draws or sets an expiry; and so does a replica that applies the stream of
its leader, if also no command of the leader fails in the middle. -/
theorem replay_agrees_iff {s t : Store} (h : s.Same t) :
    (∀ (ctx ctx' : CommandContext) (elsewhere elsewhere' : Route → Store → Outcome)
        (frame : Frame), ctx.isReplicaReplay = true → ctx'.isReplicaReplay = true →
      (frameName frame).any isWrite = true →
      ((∀ env env',
        (execute ctx elsewhere env frame s).reply = (execute ctx' elsewhere' env' frame t).reply ∧
        (execute ctx elsewhere env frame s).store.contents =
          (execute ctx' elsewhere' env' frame t).store.contents) ↔
      ∀ r, requestOf ctx frame = some r → ¬ r.Draws s)) ∧
    (∀ (ctx ctx' : CommandContext) (elsewhere elsewhere' : Route → Store → Outcome)
        (envAt envAt' : ℕ → Env) (log : List Frame), ctx.isReplicaReplay = true →
      ctx'.isReplicaReplay = true → (∀ f ∈ log, (frameName f).any isWrite = true) →
      Along ctx elsewhere envAt (fun s r => r.Steady s) 0 log s →
      (applyLog ctx elsewhere envAt 0 log s).contents =
        (applyLog ctx' elsewhere' envAt' 0 log t).contents) ∧
    ∀ (d : Deployment) (envAt envAt' : ℕ → Env) (frames : List Frame),
      d.leader.isLeader = true → d.leader.isReplicaReplay = false →
      (∀ f ∈ frames, isData f = true) →
      Along d.leader Deployment.nowhere envAt (fun s r => r.Steady s ∧ ¬ r.Halfway s) 0 frames s →
      (serveAll d.leader Deployment.nowhere envAt 0 frames s).1.contents =
        (applyLog d.replica Deployment.nowhere envAt' 0
          (serveAll d.leader Deployment.nowhere envAt 0 frames s).2 t).contents := by
  refine ⟨?_, ?_, ?_⟩
  · intro ctx ctx' elsewhere elsewhere' frame hreplay hreplay' hwrite
    rcases execute_of_doesWrites hwrite with ⟨r, hr, hexec⟩ | ⟨g, hexec⟩
    · obtain ⟨hreq, hrun⟩ := hexec ctx (Or.inl hreplay)
      obtain ⟨-, hrun'⟩ := hexec ctx' (Or.inl hreplay')
      simp only [hreq, hrun, hrun', Option.some.injEq, forall_eq']
      constructor
      · intro hagree hdraws
        obtain ⟨env, env', hne⟩ := Request.exists_reply_ne h hdraws ctx ctx'
        exact hne (hagree env env').1
      · intro hdraws env env'
        cases hexp : r.setsExpiry with
        | false =>
          have hagree := Request.run_agree_of_not_draws hr hexp h hdraws ctx ctx' env env'
          exact ⟨hagree.reply, hagree.store.contents⟩
        | true => exact Request.run_of_setsExpiry hexp h ctx ctx' env env'
    · obtain ⟨hreq, hrun⟩ := hexec ctx (Or.inl hreplay)
      obtain ⟨-, hrun'⟩ := hexec ctx' (Or.inl hreplay')
      simp [hreq, hrun, hrun', h.contents]
  · intro ctx ctx' elsewhere elsewhere' envAt envAt' log hreplay hreplay' hwrite halong
    exact (applyLog_same (Or.inl hreplay) (Or.inl hreplay') h hwrite halong).contents
  · intro d envAt envAt' frames hleader hclient hdata halong
    exact (d.serveAll_same hleader hclient h hdata halong).contents

section Drawing

/-- A set with the members `a` and `b`. -/
def twoMembers : Store :=
  (∅ : Store).insert "t" ⟨.set (RedisSet.new.sadd [Utf8.toBytes "a", Utf8.toBytes "b"]).2, none⟩

/-- The context in which a Raft node applies its log. -/
def CommandContext.raftApply : CommandContext :=
  { CommandContext.standalone with isReplicaReplay := true }

/-- Apply a command to `twoMembers`. -/
def applyTwo (env : Env) (words : List String) : Outcome :=
  execute .raftApply Deployment.nowhere env (.command words) twoMembers

theorem same_twoMembers : twoMembers.Same twoMembers := (same_empty.insert "t" rfl)

/-- Two nodes that draw differently pop different members. -/
theorem spop_drifts_apart : twoMembers.Same twoMembers ∧
    (applyTwo (.plain 0) ["SPOP", "t"]).reply ≠
      (applyTwo (.avoiding (Utf8.toBytes "a")) ["SPOP", "t"]).reply ∧
    (applyTwo (.plain 0) ["SPOP", "t"]).store.contents ≠
      (applyTwo (.avoiding (Utf8.toBytes "a")) ["SPOP", "t"]).store.contents := by
  refine ⟨same_twoMembers, by decide, fun h => ?_⟩
  have hmember := congrArg
    (fun c : String → Option Content => Content.hasMember (Utf8.toBytes "a") (c "t")) h
  exact absurd hmember (by decide)

/-- A test for a request that removes members. -/
def asksSrem : Option Request → Bool
  | some (.srem _ _) => true
  | _ => false

/-- Removing a member by name is the same on both nodes. -/
theorem srem_stays_together :
    (applyTwo (.plain 0) ["SREM", "t", "a"]).reply =
      (applyTwo (.avoiding (Utf8.toBytes "a")) ["SREM", "t", "a"]).reply ∧
    (applyTwo (.plain 0) ["SREM", "t", "a"]).store.contents =
      (applyTwo (.avoiding (Utf8.toBytes "a")) ["SREM", "t", "a"]).store.contents := by
  refine ((replay_agrees_iff same_twoMembers).1 .raftApply .raftApply _ _ _ rfl rfl
    (by decide)).mpr (fun r hr => ?_) _ _
  have hsrem : asksSrem (requestOf .raftApply (.command ["SREM", "t", "a"])) = true := by decide
  rw [hr] at hsrem
  cases r with
  | spop => cases hsrem
  | _ => exact id

end Drawing

end LoonyRedis
