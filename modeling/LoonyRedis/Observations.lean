import LoonyRedis.Determinism

/-!
# What clients see of a store

A collection has two encodings, a hash table any order, and a clock any time. None of it
shows : stores with the same contents answer every run of commands alike, where `HGETALL`,
`SMEMBERS` and the like may list in another order. Conversely, stores that answer alike contain
the same (`contents_eq_iff_indistinguishable`), so contents are exactly what clients can observe.

Left out are the commands that report the encoding or the process (`DEBUG`, `INFO`), `SRANDMEMBER`,
the other commands where they draw from several members, and those that set an expiry.
-/

namespace LoonyRedis

open Std

/-! ## Replies -/

namespace Request

/-- Asks neither for an encoding nor for the process, and is no `SRANDMEMBER`. -/
def isPlain : Request → Bool
  | info _ | debugObject _ | srandmember _ _ => false
  | _ => true

/-- The reply may depend on the contents of the store only. -/
def Visible (s : Store) (r : Request) : Prop := r.isPlain = true ∧ r.Steady s

/-- The replies to a request are the same, or list the same in another order. -/
def Alike (f g : Frame) : Request → Prop
  | keys | hkeys _ | hvals _ | smembers _ | combine _ _ =>
    f = g ∨ ∃ l l' : List Bytes, l.Perm l' ∧ f = .bulks l ∧ g = .bulks l'
  | hgetall _ => f = g ∨ ∃ l l' : List (Bytes × Bytes), l.Perm l' ∧ f = pairsFrame l ∧
      g = pairsFrame l'
  | _ => f = g

/-- A reply is like itself. -/
theorem alike_refl (f : Frame) (r : Request) : r.Alike f f := by
  cases r with
  | keys | hkeys | hvals | smembers | combine | hgetall => exact .inl rfl
  | _ => rfl

end Request

/-! ## Reading -/

/-- Results that are related, or the same error. -/
def ResultAlike {ε β : Type} (R : β → β → Prop) : Except ε β → Except ε β → Prop
  | .ok a, .ok b => R a b
  | .error e, .error e' => e = e'
  | _, _ => False

/-- Results that are alike by equality are equal. -/
theorem ResultAlike.eq {ε β : Type} {x y : Except ε β} (h : ResultAlike Eq x y) : x = y := by
  cases x with
  | ok a =>
    cases y with
    | ok b => exact congrArg Except.ok h
    | error e => cases h
  | error e =>
    cases y with
    | ok b => cases h
    | error e' => exact congrArg Except.error h

/-- The pairs of hashes that contain the same, in two orders. -/
theorem RedisHash.allPairs_perm {a b : RedisHash} (h : a.get = b.get) (env env' : Env) :
    (a.allPairs env).Perm (b.allPairs env') := by
  have hnodup (env : Env) (c : RedisHash) : (c.allPairs env).Nodup :=
    (nodup_allPairs env c).of_map Prod.fst
  refine (List.perm_ext_iff_of_nodup (hnodup env a) (hnodup env' b)).mpr fun p => ?_
  rw [mem_allPairs, mem_allPairs, h]

namespace Store

variable {α β : Type} {K : Kind α} {key : String} {dflt : β} {s t : Store}

/-- Reading values that contain the same. -/
theorem Same.read {R : β → β → Prop} {f g : α → β} (h : s.Same t) (hK : K.Respects)
    (hdflt : R dflt dflt) (hf : ∀ a b, K.Same a b → R (f a) (g b)) :
    ResultAlike R (Store.read K key dflt f s) (Store.read K key dflt g t) := by
  unfold Store.read
  rcases h.lookup key with ⟨hs, ht⟩ | ⟨v, w, hs, ht, hvw⟩
  · rw [hs, ht]
    exact hdflt
  · rw [hs, ht]
    rcases hK v w hvw with ⟨hv, hw⟩ | ⟨a, b, hv, hw, hab⟩
    · simp only [hv, hw]
      rfl
    · simp only [hv, hw]
      exact hf a b hab

/-- Both stores hold nothing at a key, or values of one content. -/
theorem Same.get_cases (h : Same s t) (now now' : ℕ) (k : String) :
    ((s.get now k).1 = none ∧ (t.get now' k).1 = none) ∨ ∃ v w, (s.get now k).1 = some v ∧
      (t.get now' k).1 = some w ∧ v.content = w.content := by
  unfold get
  rcases h.lookup k with ⟨hs, ht⟩ | ⟨v, w, hs, ht, hvw⟩
  · rw [hs, ht]
    exact .inl ⟨rfl, rfl⟩
  · rw [hs, ht]
    exact .inr ⟨v, w, rfl, rfl, hvw⟩

/-- Both stores hold the same keys. -/
theorem Same.isSome_iff (h : Same s t) (k : String) : s[k]?.isSome = t[k]?.isSome := by
  rcases h.lookup k with ⟨hs, ht⟩ | ⟨v, w, hs, ht, -⟩
  · rw [hs, ht]
  · rw [hs, ht]
    rfl

/-- Both stores list the same keys. -/
theorem Same.keys_perm (h : Same s t) : s.keys.Perm t.keys := by
  refine (List.perm_ext_iff_of_nodup ExtTreeMap.nodup_keys ExtTreeMap.nodup_keys).mpr fun k => ?_
  rw [ExtTreeMap.mem_keys, ExtTreeMap.mem_keys, ExtTreeMap.mem_iff_isSome_getElem?,
    ExtTreeMap.mem_iff_isSome_getElem?, h.isSome_iff]

/-- `KEYS` lists the same keys on both stores. -/
theorem Same.allKeys_perm (h : Same s t) (env env' : Env) :
    (s.allKeys env).Perm (t.allKeys env') := by
  rw [allKeys, allKeys, live_of_noExpiry h.left, live_of_noExpiry h.right]
  exact ((env.keyOrder_perm _).trans h.keys_perm).trans (env'.keyOrder_perm _).symm

/-- `DBSIZE` is the same on both stores. -/
theorem Same.keysCount_eq (h : Same s t) : s.keysCount = t.keysCount := by
  rw [keysCount, keysCount, ← ExtTreeMap.length_keys, ← ExtTreeMap.length_keys]
  exact h.keys_perm.length_eq

/-- `TYPE` is the same on both stores. -/
theorem Same.typeOf_eq (h : Same s t) (now now' : ℕ) (k : String) :
    s.typeOf now k = t.typeOf now' k := by
  unfold typeOf
  rcases h.lookup k with ⟨hs, ht⟩ | ⟨v, w, hs, ht, hvw⟩
  · rw [hs, ht]
  · rw [hs, ht]
    cases v <;> cases w <;> simp_all [Value.content, Entry.isExpired]

/-- `PTTL` is the same on both stores. -/
theorem Same.pttl_eq (h : Same s t) (now now' : ℕ) (k : String) :
    s.pttl now k = t.pttl now' k := by
  unfold pttl
  rcases h.lookup k with ⟨hs, ht⟩ | ⟨v, w, hs, ht, -⟩
  · rw [hs, ht]
  · rw [hs, ht]
    rfl

/-- What a set operation lists. -/
theorem Same.combine (h : Same s t) (op : SetOp) (env env' : Env) (keys : List String) :
    ResultAlike List.Perm (Store.combine op.fn env keys s) (Store.combine op.fn env' keys t) := by
  rcases combine_eq op env keys s with ⟨⟨k, hk, hnot⟩, hs⟩ | ⟨hall, r, hs, hmem⟩
  · rcases combine_eq op env' keys t with ⟨-, ht⟩ | ⟨hall, -⟩
    · rw [hs, ht]
      rfl
    · exact absurd ((h.notSet_iff k).mp hnot) (hall k hk)
  · rcases combine_eq op env' keys t with ⟨⟨k, hk, hnot⟩, -⟩ | ⟨-, r', ht, hmem'⟩
    · exact absurd ((h.notSet_iff k).mpr hnot) (hall k hk)
    · have hsel (m : Bytes) : op.Selects s keys m ↔ op.Selects t keys m := by
        cases op <;> simp only [SetOp.Selects, h.memberAt_iff]
      have hr : r = r' := ExtTreeSet.ext_mem fun m => by rw [hmem, hmem', hsel]
      rw [hs, ht, hr]
      exact (env.memberOrder_perm _).trans (env'.memberOrder_perm _).symm

/-- `MGET` is the same on both stores. -/
theorem Same.mgetLoop (now now' : ℕ) (ks : List (Option String)) (h : s.Same t) :
    (mgetLoop now ks s).1 = (LoonyRedis.mgetLoop now' ks t).1 := by
  induction ks with
  | nil => rfl
  | cons k ks ih =>
    cases k with
    | none => simp only [LoonyRedis.mgetLoop, ih]
    | some k =>
      simp only [LoonyRedis.mgetLoop, get_of_noExpiry h.left, get_of_noExpiry h.right, ih]
      rcases h.get_cases now now' k with ⟨hs, ht⟩ | ⟨v, w, hs, ht, hvw⟩
      · rw [hs, ht]
      · rw [hs, ht]
        cases v <;> cases w <;> simp_all [Value.content]

end Store

/-! ## Requests -/

namespace Request

variable {ctx : CommandContext} {env env' : Env} {s t : Store} {r : Request}

section Queries

variable {α β : Type} {x y : Except String β} {fmt : β → Frame}

/-- A query whose results are equal replies the same. -/
theorem query_eq (h : ResultAlike Eq x y) :
    (Outcome.query s x fmt).reply = (Outcome.query t y fmt).reply := by
  rw [h.eq]
  cases y <;> rfl

/-- Two listings, or the same error. -/
theorem query_perm {γ : Type} {x y : Except String (List γ)} {fmt : List γ → Frame}
    (h : ResultAlike List.Perm x y) :
    (Outcome.query s x fmt).reply = (Outcome.query t y fmt).reply ∨ ∃ l l' : List γ, l.Perm l' ∧
      (Outcome.query s x fmt).reply = fmt l ∧ (Outcome.query t y fmt).reply = fmt l' := by
  cases x with
  | ok a =>
    cases y with
    | ok b => exact .inr ⟨a, b, h, rfl, rfl⟩
    | error e => cases h
  | error e =>
    cases y with
    | ok b => cases h
    | error e' => exact .inl (congrArg Frame.error h)

end Queries

/-- A read answers alike on stores that contain the same. -/
theorem alike_of_not_isWrite (hr : r.isWrite = false) (hplain : r.isPlain = true) (h : s.Same t) :
    r.Alike (r.run ctx env s).reply (r.run ctx env' t).reply := by
  cases r with
  | info | debugObject | srandmember => cases hplain
  | answer f => rfl
  | existsKeys ks =>
    have hexists (k : String) : s.exists_ env.now k = t.exists_ env'.now k := h.exists_eq ..
    simp only [Alike, run, hexists]
  | type key => exact congrArg Frame.simpleString (h.typeOf_eq ..)
  | ttl key | pttl key => simp only [Alike, run, h.pttl_eq env.now env'.now]
  | keys => exact .inr ⟨_, _, (h.allKeys_perm env env').map Utf8.toBytes, rfl, rfl⟩
  | dbsize => simp only [Alike, run, h.keysCount_eq]
  | get key | strlen key =>
    simp only [Alike, run]
    rcases h.get_cases env.now env'.now key with ⟨hs, ht⟩ | ⟨v, w, hs, ht, hvw⟩
    · rw [hs, ht]
    · rw [hs, ht]
      cases v <;> cases w <;> simp_all [Value.content]
  | mget ks => exact congrArg (fun items => Frame.array (some items)) (h.mgetLoop _ _ ks)
  | llen key =>
    exact query_eq (h.read Kind.respects_list rfl fun a b hab =>
      RedisList.len_congr (Kind.same_list.mp hab))
  | lrange key start stop =>
    refine query_eq (h.read Kind.respects_list rfl fun a b hab => ?_)
    rw [Kind.same_list] at hab
    simp only [RedisList.range, RedisList.len_congr hab, hab]
  | lindex key index =>
    refine query_eq (h.read Kind.respects_list rfl fun a b hab => ?_)
    rw [Kind.same_list] at hab
    have hget : a.get = b.get := funext fun i => congrArg (fun l => l[i]?) hab
    simp only [Store.listIndex, RedisList.len_congr hab, hget]
  | hget key field =>
    exact query_eq (h.read Kind.respects_hash rfl fun a b hab =>
      congrFun (Kind.same_hash.mp hab) field)
  | hmget key fields =>
    have hget (field : Bytes) : s.hget key field = t.hget key field :=
      (h.read Kind.respects_hash rfl fun a b hab => congrFun (Kind.same_hash.mp hab) field).eq
    simp only [Alike, run, hget]
  | hgetall key =>
    exact query_perm (h.read Kind.respects_hash .rfl fun a b hab =>
      RedisHash.allPairs_perm (Kind.same_hash.mp hab) env env')
  | hlen key =>
    exact query_eq (h.read Kind.respects_hash rfl fun a b hab =>
      RedisHash.len_congr (Kind.same_hash.mp hab))
  | hexists key field =>
    refine query_eq (h.read Kind.respects_hash rfl fun a b hab => ?_)
    rw [RedisHash.contains_eq, RedisHash.contains_eq, Kind.same_hash.mp hab]
  | hkeys key | hvals key =>
    exact query_perm (h.read Kind.respects_hash .rfl fun a b hab =>
      (RedisHash.allPairs_perm (Kind.same_hash.mp hab) env env').map _)
  | smembers key =>
    exact query_perm (h.read Kind.respects_set .rfl fun a b hab =>
      RedisSet.members_perm (Kind.same_set.mp hab) env env')
  | sismember key member =>
    exact query_eq (h.read Kind.respects_set rfl fun a b hab =>
      congrFun (Kind.same_set.mp hab) member)
  | scard key =>
    exact query_eq (h.read Kind.respects_set rfl fun a b hab =>
      RedisSet.len_congr (Kind.same_set.mp hab))
  | combine op ks => exact query_perm (h.combine op env env' ks)
  | zscore | zrank | zrevrank | zcard | zcount | zrange | zrangebyscore =>
    exact query_eq (h.read Kind.respects_zset rfl fun a b hab => by rw [Kind.same_zset.mp hab])
  | _ => cases hr

/-- A request whose reply depends on the contents only. -/
theorem run_alike (hr : r.Visible s) (h : s.Same t) :
    r.Alike (r.run ctx env s).reply (r.run ctx env' t).reply ∧
      (r.run ctx env s).store.Same (r.run ctx env' t).store := by
  obtain ⟨hplain, hdraws, hexp⟩ := hr
  cases hwrite : r.isWrite with
  | false =>
    refine ⟨alike_of_not_isWrite hwrite hplain h, ?_⟩
    rwa [run_store_of_not_isWrite hwrite h.left, run_store_of_not_isWrite hwrite h.right]
  | true =>
    have hagree := run_agree_of_not_draws hwrite hexp h hdraws ctx ctx env env'
    refine ⟨?_, hagree.store⟩
    rw [hagree.reply]
    exact alike_refl _ r

end Request

/-! ## Runs -/

section Runs

variable (ctx : CommandContext) (elsewhere : Route → Store → Outcome) (envAt envAt' : ℕ → Env)

/-- Replies to a frame that are alike. -/
def Frame.AlikeFor (frame f g : Frame) : Prop :=
  (∀ r, requestOf ctx frame = some r → r.Alike f g) ∧ (requestOf ctx frame = none → f = g)

/-- The replies to the frames of a run are alike, with the store `s` in one surrounding and
`t` in another. -/
def RepliesAlike : ℕ → List Frame → Store → Store → Prop
  | _, [], _, _ => True
  | i, f :: fs, s, t =>
    let o := execute ctx elsewhere (envAt i) f s
    let p := execute ctx elsewhere (envAt' i) f t
    f.AlikeFor ctx o.reply p.reply ∧ RepliesAlike (i + 1) fs o.store p.store

/-- Every run of data commands that show contents only has replies that are alike. -/
def Indistinguishable (s t : Store) : Prop :=
  ∀ (envAt envAt' : ℕ → Env) (frames : List Frame), (∀ f ∈ frames, isData f = true) →
    Along ctx elsewhere envAt Request.Visible 0 frames s →
    RepliesAlike ctx elsewhere envAt envAt' 0 frames s t

variable {ctx elsewhere envAt envAt'} {s t : Store}

/-- One frame. -/
theorem execute_alike (hraft : ctx.raft = none) (hcluster : ctx.cluster = none) {f : Frame}
    (hdata : isData f = true) (hok : ∀ r, requestOf ctx f = some r → r.Visible s) (h : s.Same t)
    (env env' : Env) :
    f.AlikeFor ctx (execute ctx elsewhere env f s).reply (execute ctx elsewhere env' f t).reply ∧
      (execute ctx elsewhere env f s).store.Same (execute ctx elsewhere env' f t).store := by
  cases hr : requestOf ctx f with
  | some r =>
    obtain ⟨hreply, hstore⟩ := Request.run_alike (hok r hr) h
    rw [Deployment.execute_of_requestOf hr, Deployment.execute_of_requestOf hr]
    refine ⟨⟨fun r' hr' => ?_, fun hnone => ?_⟩, hstore⟩
    · obtain rfl := Option.some.inj (hr.symm.trans hr')
      exact hreply
    · rw [hr] at hnone
      cases hnone
  | none =>
    have hsame (g : Frame) (henv : ∀ env s, execute ctx elsewhere env f s = ⟨g, s, []⟩) :
        f.AlikeFor ctx (execute ctx elsewhere env f s).reply
            (execute ctx elsewhere env' f t).reply ∧
          (execute ctx elsewhere env f s).store.Same (execute ctx elsewhere env' f t).store := by
      rw [henv, henv]
      exact ⟨⟨fun r _ => r.alike_refl g, fun _ => rfl⟩, h⟩
    rcases route_of_isData hraft hcluster hdata with ⟨g, hroute⟩ | ⟨name, args, hroute⟩
    · exact hsame g fun _ _ => by simp only [execute, hroute]
    · cases hread : readCommand ctx name args with
      | error g => exact hsame g fun _ _ => by simp only [execute, hroute, dispatch, hread]
      | ok r =>
        rw [requestOf, hroute] at hr
        simp [hread, Except.toOption] at hr

/-- A run. -/
theorem repliesAlike_of_same (hraft : ctx.raft = none) (hcluster : ctx.cluster = none)
    {fs : List Frame} {i : ℕ} (hdata : ∀ f ∈ fs, isData f = true)
    (halong : Along ctx elsewhere envAt Request.Visible i fs s) (h : s.Same t) :
    RepliesAlike ctx elsewhere envAt envAt' i fs s t := by
  induction fs generalizing i s t with
  | nil => trivial
  | cons f fs ih =>
    rw [List.forall_mem_cons] at hdata
    obtain ⟨hreply, hstore⟩ := execute_alike hraft hcluster hdata.1 halong.1 h (envAt i) (envAt' i)
    exact ⟨hreply, ih hdata.2 halong.2 hstore⟩

end Runs

/-! ## What tells stores apart -/

/-- What there is of a value can be asked for : a list fits in memory, and the scores of a sorted
set are numbers. -/
def Value.Told : Value → Prop
  | .list l => (l.len : ℤ) ≤ Text.i64Max
  | v => ¬ v.HasNaN

/-- All values can be asked for. -/
def Store.Told (s : Store) : Prop := ∀ (k : String) (e : Entry), s[k]? = some e → e.value.Told

section Asking

variable {ctx : CommandContext} {elsewhere : Route → Store → Outcome} {s t : Store} {k : String}

/-- A frame of a read command is dispatched on a single node. -/
theorem requestOf_bulks (hraft : ctx.raft = none) (hcluster : ctx.cluster = none) {name : String}
    (hname : commandName (Utf8.toBytes name) = name) (hwrite : isWrite name = false)
    (hlocal : ¬ (name = "CLUSTER" ∨ name = "MIGRATE")) {parts : List Bytes} {r : Request}
    (hread : readCommand ctx name (.bulkStr name :: bulkArgs parts) = .ok r) :
    requestOf ctx (.bulks (Utf8.toBytes name :: parts)) = some r ∧
      isData (.bulks (Utf8.toBytes name :: parts)) = true := by
  have hbytes : bulkBytes (.bulkStr name :: bulkArgs parts) 0 = some (Utf8.toBytes name) := rfl
  have hframe : Frame.bulks (Utf8.toBytes name :: parts) =
      .array (some (.bulkStr name :: bulkArgs parts)) := rfl
  constructor
  · rw [hframe, requestOf, route]
    · simp only [hbytes, hname, routeCommand_single hraft hcluster, routeHere, hwrite,
        if_neg hlocal, Bool.false_and, Bool.false_eq_true, if_false, hread]
      rfl
    · exact List.cons_ne_nil _ _
  · rw [hframe, isData]
    simp only [hbytes, hname]
    simpa [not_or] using hlocal

/-- Stores that cannot be told apart answer a request that lists nothing with one reply. -/
theorem Indistinguishable.reply (h : Indistinguishable ctx elsewhere s t) {f : Frame} {r : Request}
    (hr : requestOf ctx f = some r ∧ isData f = true) (hvisible : r.Visible s) :
    r.Alike (r.run ctx (.plain 0) s).reply (r.run ctx (.plain 0) t).reply := by
  have hone := h (fun _ => .plain 0) (fun _ => .plain 0) [f] (by simpa using hr.2)
    ⟨fun r' hr' => Option.some.inj (hr.1.symm.trans hr') ▸ hvisible, trivial⟩
  have halike := hone.1.1 r hr.1
  rwa [Deployment.execute_of_requestOf hr.1, Deployment.execute_of_requestOf hr.1] at halike

open Store.SnapshotEntry

theorem keyCommand_bulkArgs (cmd name key : String) (req : String → Request) :
    keyCommand cmd req (.bulkStr name :: bulkArgs [Utf8.toBytes key]) = .ok (req key) := by
  have hkey := strArg_key name key [] cmd
  simp only [keyCommand, bulkArgs, List.map_cons, List.map_nil]
  simp only [Frame.bulkStr] at hkey ⊢
  rw [hkey]
  rfl

theorem fieldCommand_bulkArgs (cmd name key : String) (req : String → Bytes → Request)
    (field : Bytes) : fieldCommand cmd req (· = 3)
      (.bulkStr name :: bulkArgs [Utf8.toBytes key, field]) = .ok (req key field) := by
  have hkey := strArg_key name key [.bulk (some field)] cmd
  simp only [fieldCommand, bulkArgs, List.map_cons, List.map_nil]
  simp only [Frame.bulkStr] at hkey ⊢
  rw [hkey]
  rfl

/-- The whole list. -/
theorem read_lrange (key : String) :
    readCommand ctx "LRANGE" (.bulkStr "LRANGE" ::
      bulkArgs [Utf8.toBytes key, Utf8.toBytes "0", Utf8.toBytes "-1"]) =
    .ok (.lrange key 0 (-1)) := by
  have hkey := strArg_key "LRANGE" key [.bulkStr "0", .bulkStr "-1"] "lrange"
  have htable : (commandTable ctx).lookup "LRANGE" = some cmdLrange := rfl
  simp only [readCommand, htable, cmdLrange, bulkArgs, List.map_cons, List.map_nil]
  simp only [Frame.bulkStr] at hkey ⊢
  rw [hkey]
  rfl

/-- The window from the first to the last is everything. -/
theorem window_whole_int {n : ℕ} (h : (n : ℤ) ≤ Text.i64Max) : Text.window n 0 (-1) = (0, n) := by
  have hlast : (Text.wrap ((n : ℤ) + -1)).1 = n + -1 :=
    Text.wrap_of_fits (by simp only [Text.i64Min, Text.i64Max] at h ⊢; omega)
  have hend : (Text.wrap ((n : ℤ) + -1 + 1)).1 = n := by
    rw [neg_add_cancel_right]
    exact Text.wrap_of_fits (by simp only [Text.i64Min, Text.i64Max] at h ⊢; omega)
  have hsize : Text.asUsize n = n := by
    simp only [Text.asUsize, Text.i64Max] at h ⊢
    omega
  rw [Text.window, if_neg (by decide), if_pos (by decide), hlast, hend, Int.min_self,
    max_eq_left (Int.natCast_nonneg n), hsize]
  rfl

/-- The whole range of a list is the list. -/
theorem range_whole (l : RedisList) : l.range 0 l.len = l.toVec := by
  rw [RedisList.range]
  split
  · next hle => exact (RedisList.len_eq_zero.mp (by omega)).symm
  · rw [List.drop_zero, Nat.sub_zero, Nat.min_self]
    exact List.take_length

/-- The reply to a read of a key that holds a value of the right type. -/
theorem reply_of_read {α β : Type} {K : Kind α} {dflt : β} {f : α → β} {fmt : β → Frame} {e : Entry}
    {a : α} (hkey : s[k]? = some e) (hview : K.view e.value = some a) :
    (Outcome.query s (Store.read K k dflt f s) fmt).reply = fmt (f a) := by
  simp only [Outcome.query, Outcome.change, Outcome.of, Store.read, hkey, hview]

/-- Scores that are shown alike are the same, if they are numbers. -/
theorem display_injective {x y : F64} (hx : x.isNaN = false) (hy : y.isNaN = false)
    (h : x.display = y.display) : x = y := by
  have hparse := F64.parse_display hx
  rw [h, F64.parse_display hy] at hparse
  exact (Option.some.inj hparse).symm

/-- The two flags are told apart. -/
theorem flag_injective : Function.Injective Frame.flag := by
  intro a b h
  have hint := Frame.integer.inj h
  cases a <;> cases b <;> simp_all

/-- The reply to `ZSCORE`. -/
def scoreOrNull (x : Option F64) : Frame := bulkOrNull (x.map fun x => Utf8.toBytes x.display)

/-- Scores that are no NaN are told apart by their replies. -/
theorem scoreOrNull_injective {z w : ZSet} {m : Bytes} (hz : ¬ (Value.zset z).HasNaN)
    (hw : ¬ (Value.zset w).HasNaN) (h : scoreOrNull (z.zscore m) = scoreOrNull (w.zscore m)) :
    z.scores[m]? = w.scores[m]? := by
  have hmap := Frame.bulk.inj h
  simp only [ZSet.zscore] at hmap
  have hnumber {z : ZSet} (hz : ¬ (Value.zset z).HasNaN) {x : F64} (hx : z.scores[m]? = some x) :
      x.isNaN = false := Bool.eq_false_iff.mpr fun hnan => hz ⟨m, x, hx, hnan⟩
  cases hzm : z.scores[m]? with
  | none =>
    cases hwm : w.scores[m]? with
    | none => rfl
    | some y => simp [hzm, hwm] at hmap
  | some x =>
    cases hwm : w.scores[m]? with
    | none => simp [hzm, hwm] at hmap
    | some y =>
      rw [hzm, hwm] at hmap
      have hdisplay := Utf8.toBytes_injective (Option.some.inj hmap)
      rw [display_injective (hnumber hz hzm) (hnumber hw hwm) hdisplay]

/-- What tells the values of a key apart : its type, and then what a read of this type says. -/
theorem Indistinguishable.contents_eq (h : Indistinguishable ctx elsewhere s t)
    (hraft : ctx.raft = none) (hcluster : ctx.cluster = none) (hs : s.NoExpiry) (ht : t.NoExpiry)
    (hstold : s.Told) (httold : t.Told) (k : String) : s.contents k = t.contents k := by
  have ask (name : String) (hname : commandName (Utf8.toBytes name) = name)
      (hlocal : ¬ (name = "CLUSTER" ∨ name = "MIGRATE")) (hwrite : isWrite name = false)
      {parts : List Bytes} {r : Request}
      (hread : readCommand ctx name (.bulkStr name :: bulkArgs parts) = .ok r)
      (hvisible : r.Visible s) : r.Alike (r.run ctx (.plain 0) s).reply
        (r.run ctx (.plain 0) t).reply :=
    h.reply (requestOf_bulks hraft hcluster hname hwrite hlocal hread) hvisible
  have htype : Frame.simpleString (s.typeOf 0 k) = Frame.simpleString (t.typeOf 0 k) :=
    ask "TYPE" (by decide) (by decide) (by decide) (keyCommand_bulkArgs "type" "TYPE" k .type)
      ⟨rfl, id, rfl⟩
  cases hsk : s[k]? with
  | none =>
    cases htk : t[k]? with
    | none => rw [Store.contents, Store.contents, hsk, htk]
    | some e =>
      obtain ⟨w, x⟩ := e
      obtain rfl : x = none := ht k _ htk
      cases w <;> simp [Store.typeOf, hsk, htk, Entry.isExpired] at htype
  | some e =>
    obtain ⟨v, x⟩ := e
    obtain rfl : x = none := hs k _ hsk
    cases htk : t[k]? with
    | none => cases v <;> simp [Store.typeOf, hsk, htk, Entry.isExpired] at htype
    | some e' =>
      obtain ⟨w, x⟩ := e'
      obtain rfl : x = none := ht k _ htk
      rw [Store.contents, Store.contents, hsk, htk]
      refine congrArg some ?_
      have hv := hstold k _ hsk
      have hw := httold k _ htk
      cases v with
      | string b =>
        cases w with
        | string b' =>
          have hget := ask "GET" (by decide) (by decide) (by decide)
            (keyCommand_bulkArgs "get" "GET" k .get) ⟨rfl, id, rfl⟩
          have hbytes : b = b' := by
            simpa [Request.Alike, Request.run, Store.get, hsk, htk, Entry.isExpired] using hget
          rw [hbytes]
        | _ => simp [Store.typeOf, hsk, htk, Entry.isExpired] at htype
      | list l =>
        cases w with
        | list l' =>
          have hlrange : (Outcome.query s (s.lrange k 0 (-1)) .bulks).reply =
              (Outcome.query t (t.lrange k 0 (-1)) .bulks).reply :=
            ask "LRANGE" (by decide) (by decide) (by decide) (read_lrange k) ⟨rfl, id, rfl⟩
          have hvec := Frame.bulks_injective
            (((reply_of_read hsk rfl).symm.trans hlrange).trans (reply_of_read htk rfl))
          have hfit : (l.len : ℤ) ≤ Text.i64Max := hstold k _ hsk
          have hfit' : (l'.len : ℤ) ≤ Text.i64Max := httold k _ htk
          simp only [window_whole_int hfit, window_whole_int hfit', range_whole] at hvec
          exact congrArg Content.list hvec
        | _ => simp [Store.typeOf, hsk, htk, Entry.isExpired] at htype
      | hash m =>
        cases w with
        | hash m' =>
          refine congrArg Content.hash (funext fun f => ?_)
          have hget : (Outcome.query s (s.hget k f) bulkOrNull).reply =
              (Outcome.query t (t.hget k f) bulkOrNull).reply :=
            ask "HGET" (by decide) (by decide) (by decide)
              (fieldCommand_bulkArgs "hget" "HGET" k .hget f) ⟨rfl, id, rfl⟩
          exact Frame.bulk.inj
            (((reply_of_read hsk rfl).symm.trans hget).trans (reply_of_read htk rfl))
        | _ => simp [Store.typeOf, hsk, htk, Entry.isExpired] at htype
      | set m =>
        cases w with
        | set m' =>
          refine congrArg Content.set (funext fun x => ?_)
          have hmember : (Outcome.query s (s.sismember k x) .flag).reply =
              (Outcome.query t (t.sismember k x) .flag).reply :=
            ask "SISMEMBER" (by decide) (by decide) (by decide)
              (fieldCommand_bulkArgs "sismember" "SISMEMBER" k .sismember x) ⟨rfl, id, rfl⟩
          exact flag_injective
            (((reply_of_read hsk rfl).symm.trans hmember).trans (reply_of_read htk rfl))
        | _ => simp [Store.typeOf, hsk, htk, Entry.isExpired] at htype
      | zset z =>
        cases w with
        | zset z' =>
          refine congrArg Content.zset (ZSet.ext_scores (ExtTreeMap.ext_getElem? fun x => ?_))
          have hscore : (Outcome.query s (s.zscore k x) scoreOrNull).reply =
              (Outcome.query t (t.zscore k x) scoreOrNull).reply :=
            ask "ZSCORE" (by decide) (by decide) (by decide)
              (fieldCommand_bulkArgs "zscore" "ZSCORE" k .zscore x) ⟨rfl, id, rfl⟩
          exact scoreOrNull_injective hv hw
            (((reply_of_read hsk rfl).symm.trans hscore).trans (reply_of_read htk rfl))
        | _ => simp [Store.typeOf, hsk, htk, Entry.isExpired] at htype

end Asking

/-- On a single node, stores without expiries contain the same if and only if no run of commands
tells them apart, whatever the encodings of their collections, the orders of their hash tables
and the times at which the commands come. -/
theorem contents_eq_iff_indistinguishable {ctx : CommandContext} (hraft : ctx.raft = none)
    (hcluster : ctx.cluster = none) (elsewhere : Route → Store → Outcome) {s t : Store}
    (hs : s.NoExpiry) (ht : t.NoExpiry) (hstold : s.Told) (httold : t.Told) :
    s.contents = t.contents ↔ Indistinguishable ctx elsewhere s t := by
  refine ⟨fun h envAt envAt' frames hdata halong => ?_, fun h => funext fun k => ?_⟩
  · exact repliesAlike_of_same hraft hcluster hdata halong ⟨h, hs, ht⟩
  · exact h.contents_eq hraft hcluster hs ht hstold httold k

/-- A list of one element, in either encoding. -/
def oneItem (large : Bool) : Store :=
  (∅ : Store).insert "l" ⟨.list (if large then .large [[0x78]] else .small [[0x78]]), none⟩

/-- Only `DEBUG OBJECT` tells which encoding a list has. -/
theorem encodings_indistinguishable :
    (oneItem false).debugObject 0 "l" ≠ (oneItem true).debugObject 0 "l" ∧
      Indistinguishable .standalone Deployment.nowhere (oneItem false) (oneItem true) := by
  have hsame : (oneItem false).Same (oneItem true) := Store.same_empty.insert "l" rfl
  have htold (large : Bool) : (oneItem large).Told := by
    intro k e he
    rw [oneItem, FinMap.getElem?_insert] at he
    split at he
    · obtain rfl := Option.some.inj he
      cases large <;> simp [Value.Told, RedisList.len, RedisList.toVec, Text.i64Max]
    · simp at he
  exact ⟨by decide, (contents_eq_iff_indistinguishable rfl rfl _ hsame.left hsame.right
    (htold false) (htold true)).mp hsame.contents⟩

end LoonyRedis
