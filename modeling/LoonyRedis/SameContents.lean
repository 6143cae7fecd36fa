import LoonyRedis.ExpiredKeys
import LoonyRedis.Replay

/-!
# Writes on stores with the same contents

Two stores without expiries have the same contents if they hold the same keys with values
that contain the same, in whatever encoding (`Store.Same`). A write whose result does not
depend on the time or on chance answers the same on both and keeps them the same :
`Request.run_agree`. The orders in which the two sides list their hash tables do not matter
either.
-/

namespace LoonyRedis

open Std

namespace Store

/-- No entry expires. -/
def NoExpiry (s : Store) : Prop := ∀ (k : String) (e : Entry), s[k]? = some e → e.expiresAt = none

/-- For each key, what its value contains. -/
def contents (s : Store) (k : String) : Option Content := s[k]?.map fun e => e.value.content

/-- The contents after a key is written. -/
theorem contents_insert (s : Store) (k : String) (e : Entry) :
    contents (s.insert k e) = fun k' => if k = k' then some e.value.content else s.contents k' := by
  ext k' : 1
  simp only [contents, FinMap.getElem?_insert]
  split <;> rfl

/-- The same keys with the same contents, and no expiries. -/
structure Same (s t : Store) : Prop where
  contents : s.contents = t.contents
  left : s.NoExpiry
  right : t.NoExpiry

namespace Same

variable {s t u : Store}

theorem refl (h : s.NoExpiry) : Same s s := ⟨rfl, h, h⟩

theorem symm (h : Same s t) : Same t s := ⟨h.contents.symm, h.right, h.left⟩

theorem trans (h : Same s t) (h' : Same t u) : Same s u :=
  ⟨h.contents.trans h'.contents, h.left, h'.right⟩

/-- What two such stores hold at a key. -/
theorem lookup (h : Same s t) (k : String) : (s[k]? = none ∧ t[k]? = none) ∨
    ∃ v w, s[k]? = some ⟨v, none⟩ ∧ t[k]? = some ⟨w, none⟩ ∧ v.content = w.content := by
  have hk := congrFun h.contents k
  unfold Store.contents at hk
  cases hs : s[k]? with
  | none =>
    rw [hs, Option.map_none, eq_comm, Option.map_eq_none_iff] at hk
    exact Or.inl ⟨rfl, hk⟩
  | some e =>
    cases ht : t[k]? with
    | none => simp [hs, ht] at hk
    | some e' =>
      obtain ⟨v, x⟩ := e
      obtain ⟨w, y⟩ := e'
      obtain rfl : x = none := h.left k _ hs
      obtain rfl : y = none := h.right k _ ht
      exact Or.inr ⟨v, w, rfl, rfl, by simpa [hs, ht] using hk⟩

/-- Values with the same contents are written under a key. -/
theorem insert (h : Same s t) (k : String) {v w : Value} (hvw : v.content = w.content) :
    Same (s.insert k ⟨v, none⟩) (t.insert k ⟨w, none⟩) := by
  have hexp {s : Store} (hs : s.NoExpiry) (v : Value) : NoExpiry (s.insert k ⟨v, none⟩) := by
    intro k' e he
    rw [FinMap.getElem?_insert] at he
    split at he
    · rw [← Option.some.inj he]
    · exact hs k' e he
  refine ⟨?_, hexp h.left v, hexp h.right w⟩
  rw [contents_insert, contents_insert, hvw, h.contents]

/-- A key is removed from both stores. -/
theorem erase (h : Same s t) (k : String) : Same (s.erase k) (t.erase k) := by
  have hexp {s : Store} (hs : s.NoExpiry) : NoExpiry (s.erase k) := by
    intro k' e he
    rw [FinMap.getElem?_erase] at he
    split at he
    · cases he
    · exact hs k' e he
  refine ⟨funext fun k' => ?_, hexp h.left, hexp h.right⟩
  have hk' := congrFun h.contents k'
  unfold Store.contents at hk' ⊢
  rw [FinMap.getElem?_erase, FinMap.getElem?_erase]
  split
  · rfl
  · exact hk'

end Same

end Store

/-! ## The patterns -/

/-- Values of a type that contain the same. -/
def Kind.Same {α : Type} (K : Kind α) (a b : α) : Prop := (K.wrap a).content = (K.wrap b).content

/-- Values with the same contents are of the same type. -/
def Kind.Respects {α : Type} (K : Kind α) : Prop := ∀ v w : Value, v.content = w.content →
  (K.view v = none ∧ K.view w = none) ∨ ∃ a b, K.view v = some a ∧ K.view w = some b ∧ K.Same a b

/-- A change that does the same to values that contain the same, with the same result. -/
def Kind.Congr {α β : Type} (K : Kind α) (f g : α → Except String β × α) : Prop :=
  ∀ a b, K.Same a b → (f a).1 = (g b).1 ∧ K.Same (f a).2 (g b).2

/-- Two methods with the same result on stores that are the same, which they keep so. -/
def Op.Same {β : Type} (o p : Op β) : Prop :=
  ∀ s t : Store, s.Same t → (o s).1 = (p t).1 ∧ Store.Same (o s).2 (p t).2

namespace Kind

/-- The contents of a string are those of no other type. -/
theorem respects_string : Kind.string.Respects := by
  intro v w h
  cases v <;> cases w <;> simp_all [Value.content, Kind.string, Kind.Same]

/-- The contents of a list are those of no other type. -/
theorem respects_list : Kind.list.Respects := by
  intro v w h
  cases v <;> cases w <;> simp_all [Value.content, Kind.list, Kind.Same]

/-- The contents of a hash are those of no other type. -/
theorem respects_hash : Kind.hash.Respects := by
  intro v w h
  cases v <;> cases w <;> simp_all [Value.content, Kind.hash, Kind.Same]

/-- The contents of a set are those of no other type. -/
theorem respects_set : Kind.set.Respects := by
  intro v w h
  cases v <;> cases w <;> simp_all [Value.content, Kind.set, Kind.Same]

/-- The contents of a sorted set are those of no other type. -/
theorem respects_zset : Kind.zset.Respects := by
  intro v w h
  cases v <;> cases w <;> simp_all [Value.content, Kind.zset, Kind.Same]

theorem same_string {a b : Bytes} : Kind.string.Same a b ↔ a = b := by
  simp [Kind.Same, Kind.string, Value.content]

/-- The encoding of a list is no part of its contents. -/
theorem same_list {a b : RedisList} : Kind.list.Same a b ↔ a.toVec = b.toVec := by
  simp [Kind.Same, Kind.list, Value.content]

/-- Neither the encoding of a hash nor the order of its fields is part of its contents. -/
theorem same_hash {a b : RedisHash} : Kind.hash.Same a b ↔ a.get = b.get := by
  simp [Kind.Same, Kind.hash, Value.content]

/-- Neither the encoding of a set nor the order of its members is part of its contents. -/
theorem same_set {a b : RedisSet} : Kind.set.Same a b ↔ a.contains = b.contains := by
  simp [Kind.Same, Kind.set, Value.content]

theorem same_zset {a b : ZSet} : Kind.zset.Same a b ↔ a = b := by
  simp [Kind.Same, Kind.zset, Value.content]

end Kind

namespace Store

variable {α β : Type} {K : Kind α} {key : String} {dflt : β} {init : α}
  {f g : α → Except String β × α}

/-- Changes that do the same to the values which two stores hold. -/
theorem Same.update {s t : Store} (h : s.Same t) (hK : K.Respects)
    (hf : ∀ e a b, s[key]? = some e → K.view e.value = some a → K.Same a b →
      (f a).1 = (g b).1 ∧ K.Same (f a).2 (g b).2) :
    (update K key dflt f s).1 = (Store.update K key dflt g t).1 ∧
      Same (update K key dflt f s).2 (Store.update K key dflt g t).2 := by
  rcases h.lookup key with ⟨hs, ht⟩ | ⟨v, w, hs, ht, hvw⟩
  · rw [update_none hs, update_none ht]
    exact ⟨rfl, h⟩
  · rcases hK v w hvw with ⟨hv, hw⟩ | ⟨a, b, hv, hw, hab⟩
    · rw [update_wrong hs hv, update_wrong ht hw]
      exact ⟨rfl, h⟩
    · obtain ⟨hfst, hsnd⟩ := hf _ a b hs hv hab
      rw [update_some hs hv, update_some ht hw]
      exact ⟨hfst, h.insert key hsnd⟩

/-- Changes in place that look at the contents only. -/
theorem same_update (hK : K.Respects) (hf : K.Congr f g) :
    Op.Same (update K key dflt f) (update K key dflt g) :=
  fun _ _ h => h.update hK fun _ a b _ _ hab => hf a b hab

/-- Changes that create the key and look at the contents only. -/
theorem same_upsert (hK : K.Respects) (hf : K.Congr f g) :
    Op.Same (upsert K key init f) (upsert K key init g) := by
  intro s t h
  rcases h.lookup key with ⟨hs, ht⟩ | ⟨v, w, hs, ht, hvw⟩
  · rw [upsert_none hs, upsert_none ht]
    exact ⟨(hf init init rfl).1, h.insert key (hf init init rfl).2⟩
  · rcases hK v w hvw with ⟨hv, hw⟩ | ⟨a, b, hv, hw, hab⟩
    · rw [upsert_wrong hs hv, upsert_wrong ht hw]
      exact ⟨rfl, h⟩
    · rw [upsert_some hs hv, upsert_some ht hw]
      exact ⟨(hf a b hab).1, h.insert key (hf a b hab).2⟩

/-- Moves that look at the contents only. -/
theorem same_move (hK : K.Respects) {src dst : String} {take : α → Option β × α}
    {give : β → α → α}
    (htake : ∀ a b, K.Same a b → (take a).1 = (take b).1 ∧ K.Same (take a).2 (take b).2)
    (hgive : ∀ x a b, K.Same a b → K.Same (give x a) (give x b)) :
    Op.Same (move K src dst init take give) (move K src dst init take give) := by
  intro s t h
  rcases h.lookup src with ⟨hs, ht⟩ | ⟨v, w, hs, ht, hvw⟩
  · rw [move_none hs, move_none ht]
    exact ⟨rfl, h⟩
  · rcases hK v w hvw with ⟨hv, hw⟩ | ⟨a, b, hv, hw, hab⟩
    · rw [move_wrong hs hv, move_wrong ht hw]
      exact ⟨rfl, h⟩
    · obtain ⟨hfst, hsnd⟩ := htake a b hab
      have hinsert := h.insert src hsnd
      cases hta : (take a).1 with
      | none =>
        rw [move_empty hs hv hta, move_empty ht hw (hfst ▸ hta)]
        exact ⟨rfl, hinsert⟩
      | some x =>
        have hcongr : K.Congr (fun a => done (some x, give x a)) fun a => done (some x, give x a) :=
          fun a b hab => ⟨rfl, hgive x a b hab⟩
        rw [move_some hs hv hta, move_some ht hw (hfst ▸ hta)]
        exact same_upsert hK hcongr _ _ hinsert

end Store

/-! ## Lists, hashes and sets -/

namespace RedisList

variable {a b : RedisList}

/-- Pops are the same on lists with the same elements, by induction on their number. -/
theorem popN_congr {pop : RedisList → Option Bytes × RedisList}
    (hpop : ∀ a b : RedisList, a.toVec = b.toVec →
      (pop a).1 = (pop b).1 ∧ (pop a).2.toVec = (pop b).2.toVec) :
    ∀ (n : ℕ) {a b : RedisList}, a.toVec = b.toVec →
      (popN pop n a).1 = (popN pop n b).1 ∧ (popN pop n a).2.toVec = (popN pop n b).2.toVec
  | 0, _, _, h => ⟨rfl, h⟩
  | n + 1, a, b, h => by
    obtain ⟨hfst, hsnd⟩ := hpop a b h
    unfold popN
    cases ha : pop a with
    | mk x a' =>
      cases hb : pop b with
      | mk y b' =>
        rw [ha, hb] at hfst hsnd
        obtain rfl : x = y := hfst
        cases x with
        | none => exact ⟨rfl, hsnd⟩
        | some v =>
          obtain ⟨ihfst, ihsnd⟩ := popN_congr hpop n hsnd
          exact ⟨congrArg (List.cons v) ihfst, ihsnd⟩

theorem popFront_congr (h : a.toVec = b.toVec) :
    a.popFront.1 = b.popFront.1 ∧ a.popFront.2.toVec = b.popFront.2.toVec := by
  simp [popFront, h]

theorem popBack_congr (h : a.toVec = b.toVec) :
    a.popBack.1 = b.popBack.1 ∧ a.popBack.2.toVec = b.popBack.2.toVec := by
  simp [popBack, h]

theorem len_congr (h : a.toVec = b.toVec) : a.len = b.len := congrArg List.length h

theorem insertAt_congr (h : a.toVec = b.toVec) (n : ℕ) (pivot val : Bytes) :
    (a.insertAt n pivot val).1 = (b.insertAt n pivot val).1 ∧
      (a.insertAt n pivot val).2.toVec = (b.insertAt n pivot val).2.toVec := by
  simp only [insertAt, position, h]
  split <;> simp [len, h]

/-- Removals are the same on lists with the same elements. -/
theorem lrem_congr (h : a.toVec = b.toVec) (count : ℤ) (val : Bytes) :
    (a.lrem count val).1 = (b.lrem count val).1 ∧
      (a.lrem count val).2.toVec = (b.lrem count val).2.toVec := by
  simp only [lrem, h, and_self]

theorem ltrim_congr (h : a.toVec = b.toVec) (start stop : ℤ) :
    (a.ltrim start stop).toVec = (b.ltrim start stop).toVec := by
  have hlen := len_congr h
  have hrange (i j : ℕ) : a.range i j = b.range i j := by simp only [range, hlen, h]
  simp only [ltrim, hlen, hrange]

theorem setIndex_congr (h : a.toVec = b.toVec) (i : ℕ) (val : Bytes) :
    (a.setIndex i val).1 = (b.setIndex i val).1 ∧
      (a.setIndex i val).2.toVec = (b.setIndex i val).2.toVec := by
  have hlen := len_congr h
  simp only [setIndex, hlen]
  split <;> simp [h]

end RedisList

/-! ## Requests -/

namespace Request

/-- The writes whose result depends neither on chance nor on the time. -/
def isDeterministicWrite : Request → Bool
  | del _ | persist _ | flush | set _ _ none _ _ | mset _ | append _ _ | incrby _ _ _ | getset _ _
  | setnx _ _ | push _ _ _ | pop _ _ _ _ | lset _ _ _ | linsert _ _ _ _ | lrem _ _ _
  | ltrim _ _ _ | lmove _ _ _ _ | hset _ _ | hdel _ _ | hsetnx _ _ _ | hincrby _ _ _
  | hincrbyfloat _ _ _ | sadd _ _ | srem _ _ | smove _ _ _ | combineStore _ _ _ | zadd _ _ _
  | zincrby _ _ _ | zrem _ _ | zpopmin _ _ | zpopmax _ _ | zremrangebyrank _ _ _
  | zremrangebyscore _ _ _ => true
  | _ => false

end Request

namespace Store

variable {α β : Type} {K : Kind α} {key : String} {dflt : β} {init : α}
  {f : α → Except String β × α} {s t : Store}

/-- Without expiries, a look removes nothing. -/
theorem get_of_noExpiry (h : s.NoExpiry) (now : ℕ) (k : String) : (s.get now k).2 = s := by
  unfold get
  cases hs : s[k]? with
  | none => rfl
  | some e =>
    have hexp : e.isExpired now = false := by rw [Entry.isExpired, h k e hs]
    simp [hexp]

/-- Without expiries, all entries are live. -/
theorem live_of_noExpiry (h : s.NoExpiry) (now : ℕ) : s.live now = s := by
  ext k : 1
  cases hs : s[k]? with
  | none => exact getElem?_live_of_none hs
  | some e => exact getElem?_live_of_live hs (by rw [Entry.isExpired, h k e hs])

/-- The string at a key. -/
theorem Same.getset_eq (h : Same s t) (now now' : ℕ) (k : String) (val : Bytes) :
    (s.getset now k val).1 = (t.getset now' k val).1 := by
  unfold getset get
  rcases h.lookup k with ⟨hs, ht⟩ | ⟨v, w, hs, ht, hvw⟩
  · rw [hs, ht]
  · rw [hs, ht]
    cases v <;> cases w <;> simp_all [Value.content, Entry.isExpired]

/-- Stores with the same contents have the same live keys, at any time. -/
theorem Same.exists_eq (h : Same s t) (now now' : ℕ) (k : String) :
    s.exists_ now k = t.exists_ now' k := by
  unfold exists_
  rcases h.lookup k with ⟨hs, ht⟩ | ⟨v, w, hs, ht, -⟩
  · rw [hs, ht]
  · rw [hs, ht]
    rfl

theorem Same.contains_eq (h : Same s t) (k : String) : s.contains k = t.contains k := by
  rw [← ExtTreeMap.isSome_getElem?_eq_contains, ← ExtTreeMap.isSome_getElem?_eq_contains]
  rcases h.lookup k with ⟨hs, ht⟩ | ⟨v, w, hs, ht, -⟩
  · rw [hs, ht]
  · rw [hs, ht]
    rfl

/-- The same keys are removed from both stores, one after the other. -/
theorem Same.del : ∀ (ks : List String) {s t : Store}, Same s t →
    (Store.del ks s).1 = (Store.del ks t).1 ∧ Same (Store.del ks s).2 (Store.del ks t).2
  | [], _, _, h => ⟨rfl, h⟩
  | k :: ks, _, _, h => by
    obtain ⟨ihfst, ihsnd⟩ := Same.del ks (h.erase k)
    refine ⟨?_, ihsnd⟩
    rw [Store.del, Store.del, h.contains_eq k, ihfst]

/-- Without expiries, there is none to remove. -/
theorem persist_of_noExpiry (h : s.NoExpiry) (k : String) : s.persist k = (false, s) := by
  unfold persist
  cases hs : s[k]? with
  | none => rfl
  | some e => simp [h k e hs]

theorem Same.set (h : Same s t) (now now' : ℕ) (k : String) (v : Value) :
    Same (s.set now k v none) (t.set now' k v none) := h.insert k rfl

/-- The same pairs are written to both stores. -/
theorem Same.mset (now now' : ℕ) : ∀ (pairs : List (String × Bytes)) {s t : Store}, Same s t →
    Same (msetLoop now pairs s) (msetLoop now' pairs t)
  | [], _, _, h => h
  | p :: pairs, _, _, h => Same.mset now now' pairs (h.set now now' p.1 _)

theorem same_empty : Same ∅ ∅ := Same.refl fun k e he => by simp at he

/-- The same for values that contain the same when `view` agrees. -/
theorem same_upsert_of {γ : Type} {view : α → γ} (hK : K.Respects)
    (hview : ∀ {a b}, K.Same a b ↔ view a = view b)
    (hf : ∀ a b, view a = view b → (f a).1 = (f b).1 ∧ view (f a).2 = view (f b).2) :
    Op.Same (upsert K key init f) (upsert K key init f) :=
  same_upsert hK fun a b hab => by simpa only [hview] using hf a b (hview.mp hab)

/-- Changes in place that look at the contents only, as `view` gives them. -/
theorem same_update_of {γ : Type} {view : α → γ} (hK : K.Respects)
    (hview : ∀ {a b}, K.Same a b ↔ view a = view b)
    (hf : ∀ a b, view a = view b → (f a).1 = (f b).1 ∧ view (f a).2 = view (f b).2) :
    Op.Same (update K key dflt f) (update K key dflt f) :=
  same_update hK fun a b hab => by simpa only [hview] using hf a b (hview.mp hab)

/-- Strings and sorted sets contain the same only if they are equal. -/
theorem same_upsert_id (hK : K.Respects) (hview : ∀ {a b}, K.Same a b ↔ a = b) :
    Op.Same (upsert K key init f) (upsert K key init f) :=
  same_upsert hK fun a b hab => by
    rw [hview.mp hab]
    exact ⟨rfl, rfl⟩

theorem same_update_id (hK : K.Respects) (hview : ∀ {a b}, K.Same a b ↔ a = b) :
    Op.Same (update K key dflt f) (update K key dflt f) :=
  same_update hK fun a b hab => by
    rw [hview.mp hab]
    exact ⟨rfl, rfl⟩

/-! ### Loops -/

theorem same_map {γ : Type} {o p : Op β} (h : Op.Same o p) (f : β → γ) :
    Op.Same (fun s => ((o s).1.map f, (o s).2)) fun s => ((p s).1.map f, (p s).2) :=
  fun s t hst => ⟨congrArg (Except.map f) (h s t hst).1, (h s t hst).2⟩

theorem same_hset (key : String) (field value : Bytes) :
    Op.Same (hset key field value) (hset key field value) := by
  refine same_upsert_of Kind.respects_hash Kind.same_hash fun a b hab => ⟨?_, funext fun f => ?_⟩
  · simp only [done, RedisHash.hset_fst, hab]
  · simp only [done, RedisHash.get_hset, hab]

/-- The pairs are set in both stores, one after the other. -/
theorem same_hsetLoop (key : String) : ∀ pairs : List (Bytes × Bytes),
    Op.Same (hsetLoop key pairs) (hsetLoop key pairs)
  | [], _, _, h => ⟨rfl, h⟩
  | (f, v) :: pairs, s, t, h => by
    obtain ⟨hfst, hsnd⟩ := same_hset key f v s t h
    unfold hsetLoop
    cases hs : s.hset key f v with
    | mk r s' =>
      cases ht : t.hset key f v with
      | mk r' t' =>
        rw [hs, ht] at hfst hsnd
        obtain rfl : r = r' := hfst
        cases r with
        | error e => exact ⟨rfl, hsnd⟩
        | ok n => exact same_map (same_hsetLoop key pairs) (n + ·) s' t' hsnd

/-- The steps of `ZADD` are the same in both stores. -/
theorem same_zaddLoop (key : String) (flags : ZaddFlags) : ∀ steps : List ZaddStep,
    Op.Same (zaddLoop key flags steps) (zaddLoop key flags steps)
  | [], _, _, h => ⟨rfl, h⟩
  | .skip :: steps, s, t, h => same_zaddLoop key flags steps s t h
  | .bad :: _, _, _, h => ⟨rfl, h⟩
  | .add x m :: steps, s, t, h => by
    have hadd : Op.Same (zadd key x m flags.nx flags.xx flags.gt flags.lt)
        (zadd key x m flags.nx flags.xx flags.gt flags.lt) :=
      same_upsert_id Kind.respects_zset Kind.same_zset
    obtain ⟨hfst, hsnd⟩ := hadd s t h
    unfold zaddLoop
    cases hs : s.zadd key x m flags.nx flags.xx flags.gt flags.lt with
    | mk r s' =>
      cases ht : t.zadd key x m flags.nx flags.xx flags.gt flags.lt with
      | mk r' t' =>
        rw [hs, ht] at hfst hsnd
        obtain rfl : r = r' := hfst
        cases r with
        | error e => exact ⟨rfl, hsnd⟩
        | ok n =>
          exact same_map (same_zaddLoop key flags steps) (fun r => (n.1 + r.1, n.2 + r.2))
            s' t' hsnd

/-! ### Set operations -/

/-- The contents decide whether a key is a set. -/
theorem Same.notSet_iff (h : Same s t) (k : String) : s.NotSet k ↔ t.NotSet k := by
  unfold NotSet
  rcases h.lookup k with ⟨hs, ht⟩ | ⟨v, w, hs, ht, hvw⟩
  · simp [hs, ht]
  · rcases Kind.respects_set v w hvw with ⟨hv, hw⟩ | ⟨a, b, hv, hw, -⟩ <;> simp [hs, ht, hv, hw]

/-- The contents decide what is a member at a key. -/
theorem Same.memberAt_iff (h : Same s t) (k : String) (m : Bytes) :
    s.MemberAt k m ↔ t.MemberAt k m := by
  unfold MemberAt
  rcases h.lookup k with ⟨hs, ht⟩ | ⟨v, w, hs, ht, hvw⟩
  · simp [hs, ht]
  · rcases Kind.respects_set v w hvw with ⟨hv, hw⟩ | ⟨a, b, hv, hw, hab⟩
    · simp [hs, ht, hv, hw]
    · simp [hs, ht, hv, hw, Kind.same_set.mp hab]

/-- The members that a set operation selects do not depend on the order of the tables. -/
theorem same_combineStore (op : SetOp) (env env' : Env) (dst : String) (keys : List String) :
    Op.Same (combineStore op.fn env dst keys) (combineStore op.fn env' dst keys) := by
  intro s t h
  unfold combineStore
  rcases combine_eq op env keys s with ⟨⟨k, hk, hnot⟩, hs⟩ | ⟨hall, r, hs, hmem⟩
  · rcases combine_eq op env' keys t with ⟨-, ht⟩ | ⟨hall, -⟩
    · rw [hs, ht]
      exact ⟨rfl, h⟩
    · exact absurd ((h.notSet_iff k).mp hnot) (hall k hk)
  · rcases combine_eq op env' keys t with ⟨⟨k, hk, hnot⟩, -⟩ | ⟨-, r', ht, hmem'⟩
    · exact absurd ((h.notSet_iff k).mpr hnot) (hall k hk)
    · have hsel (m : Bytes) : op.Selects s keys m ↔ op.Selects t keys m := by
        cases op <;> simp only [SetOp.Selects, h.memberAt_iff]
      have hr : r = r' := ExtTreeSet.ext_mem fun m => by rw [hmem, hmem', hsel]
      rw [hs, ht, hr]
      refine ⟨?_, h.insert dst ?_⟩
      · exact congrArg Except.ok
          ((env.memberOrder_perm _).length_eq.trans (env'.memberOrder_perm _).length_eq.symm)
      simp only [Value.content, Content.set.injEq]
      ext m : 1
      rw [Bool.eq_iff_iff, RedisSet.contains_sadd, RedisSet.contains_sadd,
        (env.memberOrder_perm _).mem_iff, (env'.memberOrder_perm _).mem_iff]

end Store

/-! ## Running a request on both -/

/-- The same reply, and stores with the same contents. -/
structure Outcome.Agree (o p : Outcome) : Prop where
  reply : o.reply = p.reply
  store : o.store.Same p.store

namespace Request

section Patterns

variable {α β γ : Type} {K : Kind α} {key : String} {dflt : β} {init : α}
  {f : α → Except String β × α} {fmt : β → Frame} {log log' : β → List Record} {s t : Store}

theorem agree_of_eq {x y : Except String β × Store} (hfst : x.1 = y.1) (hsnd : x.2.Same y.2) :
    (Outcome.of x fmt log).Agree (Outcome.of y fmt log') := by
  unfold Outcome.of
  rw [hfst]
  split
  · exact ⟨rfl, hsnd⟩
  · exact ⟨rfl, hsnd⟩

/-- An operation on the contents has outcomes that agree. -/
theorem agree_of {o p : Op β} (ho : o.Same p) (h : s.Same t) :
    (Outcome.of (o s) fmt log).Agree (Outcome.of (p t) fmt log') :=
  agree_of_eq (ho s t h).1 (ho s t h).2

theorem agree_update {view : α → γ} (hK : K.Respects)
    (hview : ∀ {a b}, K.Same a b ↔ view a = view b) (h : s.Same t)
    (hf : ∀ a b, view a = view b → (f a).1 = (f b).1 ∧ view (f a).2 = view (f b).2) :
    (Outcome.of (Store.update K key dflt f s) fmt log).Agree
      (Outcome.of (Store.update K key dflt f t) fmt log') :=
  agree_of (Store.same_update_of hK hview hf) h

theorem agree_upsert {view : α → γ} (hK : K.Respects)
    (hview : ∀ {a b}, K.Same a b ↔ view a = view b) (h : s.Same t)
    (hf : ∀ a b, view a = view b → (f a).1 = (f b).1 ∧ view (f a).2 = view (f b).2) :
    (Outcome.of (Store.upsert K key init f s) fmt log).Agree
      (Outcome.of (Store.upsert K key init f t) fmt log') :=
  agree_of (Store.same_upsert_of hK hview hf) h

end Patterns

/-- A deterministic write answers the same on stores that are the same and keeps them so,
whatever the rest of the surroundings. -/
theorem run_agree {r : Request} (hr : r.isDeterministicWrite = true) {s t : Store} (h : s.Same t)
    (ctx ctx' : CommandContext) (env env' : Env) :
    (r.run ctx env s).Agree (r.run ctx' env' t) := by
  cases r with
  | del ks =>
    obtain ⟨hfst, hsnd⟩ := h.del ks
    exact ⟨congrArg (fun n : ℕ => Frame.integer n) hfst, hsnd⟩
  | persist key =>
    simp only [run, Store.persist_of_noExpiry h.left, Store.persist_of_noExpiry h.right]
    exact ⟨rfl, h⟩
  | flush => exact ⟨rfl, Store.same_empty⟩
  | set key val ttl nx xx =>
    cases ttl with
    | some ttl => cases hr
    | none =>
      simp only [run, h.exists_eq env.now env'.now key]
      split
      · exact ⟨rfl, h⟩
      · split
        · exact ⟨rfl, h⟩
        · exact ⟨rfl, h.set _ _ key _⟩
  | mset pairs => exact ⟨rfl, Store.Same.mset _ _ pairs h⟩
  | getset key val =>
    refine ⟨congrArg Frame.bulk (h.getset_eq env.now env'.now key val), ?_⟩
    simp only [run, Store.getset, Store.get_of_noExpiry h.left, Store.get_of_noExpiry h.right]
    exact h.set _ _ key _
  | setnx key val =>
    simp only [run, h.exists_eq env.now env'.now key]
    split
    · exact ⟨rfl, h⟩
    · exact ⟨rfl, h.set _ _ key _⟩
  | append | incrby =>
    exact agree_of (Store.same_upsert_id Kind.respects_string Kind.same_string) h
  | hset key pairs => exact agree_of (Store.same_hsetLoop key pairs) h
  | combineStore op dst ks => exact agree_of (Store.same_combineStore op env env' dst ks) h
  | zadd key flags steps => exact agree_of (Store.same_zaddLoop key flags steps) h
  | zincrby => exact agree_of (Store.same_upsert_id Kind.respects_zset Kind.same_zset) h
  | zrem | zpopmin | zpopmax | zremrangebyrank | zremrangebyscore =>
    exact agree_of (Store.same_update_id Kind.respects_zset Kind.same_zset) h
  | push left key values =>
    cases left with
    | true =>
      refine agree_upsert Kind.respects_list Kind.same_list h fun a b hab => ?_
      simp only [Store.done, RedisList.len, RedisList.toVec_foldl_pushFront, hab, and_self]
    | false =>
      refine agree_upsert Kind.respects_list Kind.same_list h fun a b hab => ?_
      simp only [Store.done, RedisList.len, RedisList.toVec_foldl_pushBack, hab, and_self]
  | pop left key count withCount =>
    cases left with
    | true =>
      refine agree_update Kind.respects_list Kind.same_list h fun a b hab => ?_
      obtain ⟨hfst, hsnd⟩ :=
        RedisList.popN_congr (fun _ _ => RedisList.popFront_congr) (max count 1) hab
      exact ⟨congrArg Except.ok hfst, hsnd⟩
    | false =>
      refine agree_update Kind.respects_list Kind.same_list h fun a b hab => ?_
      obtain ⟨hfst, hsnd⟩ :=
        RedisList.popN_congr (fun _ _ => RedisList.popBack_congr) (max count 1) hab
      exact ⟨congrArg Except.ok hfst, hsnd⟩
  | lset key index val =>
    refine agree_update Kind.respects_list Kind.same_list h fun a b hab => ?_
    have hidx : Store.listIndex a index = Store.listIndex b index := by
      simp only [Store.listIndex, RedisList.len_congr hab]
    rw [hidx]
    split
    · exact ⟨rfl, hab⟩
    · next i _ =>
      obtain ⟨hfst, hsnd⟩ := RedisList.setIndex_congr hab i val
      exact ⟨congrArg Except.ok hfst, hsnd⟩
  | linsert key before pivot val =>
    refine agree_update Kind.respects_list Kind.same_list h fun a b hab => ?_
    obtain ⟨hfst, hsnd⟩ := RedisList.insertAt_congr hab (if before then 0 else 1) pivot val
    cases before with
    | true => exact ⟨congrArg Except.ok hfst, hsnd⟩
    | false => exact ⟨congrArg Except.ok hfst, hsnd⟩
  | lrem key count val =>
    refine agree_update Kind.respects_list Kind.same_list h fun a b hab => ?_
    obtain ⟨hfst, hsnd⟩ := RedisList.lrem_congr hab count val
    exact ⟨congrArg Except.ok hfst, hsnd⟩
  | ltrim key start stop =>
    refine agree_update Kind.respects_list Kind.same_list h fun a b hab => ?_
    exact ⟨rfl, RedisList.ltrim_congr hab start stop⟩
  | lmove src dst fromLeft toLeft =>
    refine agree_of (Store.same_move Kind.respects_list (fun a b hab => ?_) fun x a b hab => ?_) h
    · rw [Kind.same_list] at hab ⊢
      cases fromLeft with
      | true => exact RedisList.popFront_congr hab
      | false => exact RedisList.popBack_congr hab
    · rw [Kind.same_list] at hab ⊢
      cases toLeft <;> simp [hab]
  | hdel key fields =>
    refine agree_update Kind.respects_hash Kind.same_hash h fun a b hab => ?_
    have hget : (a.hdel fields).2.get = (b.hdel fields).2.get := by
      ext f : 1
      simp only [RedisHash.get_hdel, hab]
    have hleft := RedisHash.len_congr hget
    have hlen := RedisHash.len_congr hab
    have ha := RedisHash.hdel_fst_add a fields
    have hb := RedisHash.hdel_fst_add b fields
    exact ⟨congrArg Except.ok (by omega), hget⟩
  | hsetnx key field val =>
    refine agree_upsert Kind.respects_hash Kind.same_hash h fun a b hab => ?_
    refine ⟨?_, funext fun f => by simp only [Store.done, RedisHash.get_hsetnx, hab]⟩
    simp only [Store.done, RedisHash.hsetnx, RedisHash.contains_eq, hab]
    split <;> rfl
  | hincrby key field delta =>
    refine agree_upsert Kind.respects_hash Kind.same_hash h fun a b hab => ?_
    rw [hab]
    split
    · exact ⟨rfl, hab⟩
    · split
      · exact ⟨rfl, hab⟩
      · exact ⟨rfl, funext fun f => by simp only [RedisHash.get_hset, hab]⟩
  | hincrbyfloat key field delta =>
    refine agree_upsert Kind.respects_hash Kind.same_hash h fun a b hab => ?_
    rw [hab]
    split
    · exact ⟨rfl, hab⟩
    · exact ⟨rfl, funext fun f => by simp only [RedisHash.get_hset, hab]⟩
  | sadd key members =>
    refine agree_upsert Kind.respects_set Kind.same_set h fun a b hab => ?_
    refine ⟨congrArg Except.ok (RedisSet.sadd_fst_congr members hab), funext fun m => ?_⟩
    rw [Bool.eq_iff_iff, Store.done, Store.done, RedisSet.contains_sadd, RedisSet.contains_sadd,
      hab]
  | srem key members =>
    refine agree_update Kind.respects_set Kind.same_set h fun a b hab => ?_
    have hcontains : (a.srem members).2.contains = (b.srem members).2.contains := by
      ext m : 1
      rw [Bool.eq_iff_iff, RedisSet.contains_srem, RedisSet.contains_srem, hab]
    have hleft := RedisSet.len_congr hcontains
    have hlen := RedisSet.len_congr hab
    have ha := RedisSet.srem_fst_add a members
    have hb := RedisSet.srem_fst_add b members
    exact ⟨congrArg Except.ok (by omega), hcontains⟩
  | smove src dst member =>
    refine agree_of (Store.same_map (Store.same_move Kind.respects_set (fun a b hab => ?_)
      fun x a b hab => ?_) Option.isSome) h
    · rw [Kind.same_set] at hab ⊢
      refine ⟨by rw [RedisSet.removeOne_fst, RedisSet.removeOne_fst, hab], funext fun m => ?_⟩
      rw [Bool.eq_iff_iff, RedisSet.contains_removeOne, RedisSet.contains_removeOne, hab]
    · rw [Kind.same_set] at hab ⊢
      ext m : 1
      rw [Bool.eq_iff_iff, RedisSet.contains_sadd, RedisSet.contains_sadd, hab]
  | _ => cases hr

/-- A deterministic write keeps stores the same. -/
theorem run_same {r : Request} (hr : r.isDeterministicWrite = true) {s t : Store} (h : s.Same t)
    (ctx ctx' : CommandContext) (env env' : Env) :
    (r.run ctx env s).store.Same (r.run ctx' env' t).store :=
  (run_agree hr h ctx ctx' env env').store

end Request

end LoonyRedis
