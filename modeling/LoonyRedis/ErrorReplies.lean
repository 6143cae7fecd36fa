import LoonyRedis.Commands
import LoonyRedis.ScorePairs

/-!
# Error replies and the store

A handler that answers with an error should leave the store as it found it : an error is
not broadcast to the replicas, so a change behind it stays on the leader alone.

A store method keeps to this if it is `Op.Atomic`. All of them do but two, `lmove` and
`smove`, which take the element from the source before they look at the type of the
destination; and the loop of `ZADD`, which reads each score when it comes to it, has by
then added the members before. `Request.Halfway` says when one of the three is caught in
the middle, and `error_reply_keeps_store_iff` that these are the only cases.
-/

namespace LoonyRedis

open Std

/-- A method that fails leaves the store as it was. -/
def Op.Atomic {β : Type} (o : Op β) : Prop := ∀ s e, (o s).1 = .error e → (o s).2 = s

namespace Store

variable {α β : Type} {K : Kind α} {key : String} {dflt : β} {init : α}
  {f : α → Except String β × α}

/-- A change in place is atomic if it leaves the value with an error. -/
theorem atomic_update (hf : ∀ a e, (f a).1 = .error e → (f a).2 = a) :
    (update K key dflt f).Atomic := by
  intro s e herr
  cases hkey : s[key]? with
  | none => rw [update_none hkey]
  | some en =>
    cases hv : K.view en.value with
    | none => rw [update_wrong hkey hv]
    | some a =>
      rw [update_some hkey hv] at herr ⊢
      simp only [hf a e herr]
      exact insert_view hkey hv

/-- A method that creates a missing key must not fail after it has created it. -/
theorem atomic_upsert (hf : ∀ a e, (f a).1 = .error e → (f a).2 = a)
    (hinit : ∀ e, (f init).1 ≠ .error e) : (upsert K key init f).Atomic := by
  intro s e herr
  cases hkey : s[key]? with
  | none =>
    rw [upsert_none hkey] at herr
    exact absurd herr (hinit e)
  | some en =>
    cases hv : K.view en.value with
    | none => rw [upsert_wrong hkey hv]
    | some a =>
      rw [upsert_some hkey hv] at herr ⊢
      simp only [hf a e herr]
      exact insert_view hkey hv

/-- A change in place without errors is atomic. -/
theorem atomic_update_done {g : α → β × α} : (update K key dflt fun a => done (g a)).Atomic :=
  atomic_update fun _ _ h => nomatch h

/-- A change without errors is atomic. -/
theorem atomic_upsert_done {g : α → β × α} : (upsert K key init fun a => done (g a)).Atomic :=
  atomic_upsert (fun _ _ h => nomatch h) fun _ h => nomatch h

/-- The one way in which a change that cannot fail is refused. -/
theorem upsert_done_error {g : α → β × α} {s : Store} {msg : String}
    (herr : (upsert K key init (fun a => done (g a)) s).1 = .error msg) :
    ∃ e, s[key]? = some e ∧ K.view e.value = none := by
  cases hkey : s[key]? with
  | none =>
    rw [upsert_none hkey] at herr
    cases herr
  | some e =>
    refine ⟨e, rfl, ?_⟩
    cases hv : K.view e.value with
    | none => rfl
    | some a =>
      rw [upsert_some hkey hv] at herr
      cases herr

/-- After a change that was made, the key holds a value of the type. -/
theorem holds_of_upsert {s s' : Store} {b : β} (hok : (upsert K key init f s).1 = .ok b)
    (hs : (upsert K key init f s).2 = s') :
    ∃ e a, s'[key]? = some e ∧ K.view e.value = some a := by
  cases hkey : s[key]? with
  | none =>
    rw [upsert_none hkey] at hs
    exact ⟨_, _, by rw [← hs, FinMap.getElem?_insert_self], K.view_wrap _⟩
  | some e =>
    cases hv : K.view e.value with
    | none =>
      rw [upsert_wrong hkey hv] at hok
      cases hok
    | some a =>
      rw [upsert_some hkey hv] at hs
      exact ⟨_, _, by rw [← hs, FinMap.getElem?_insert_self], K.view_wrap _⟩

/-! ## The methods -/

theorem fits_self (x : Text.I64) : Text.fits x.1 = some x := dif_pos x.2

/-- A missing counter holds the text of 0. -/
theorem parseInt_zero : parseInt (Utf8.toBytes "0") = Text.fits 0 := by decide

/-- Nothing overflows from 0. -/
theorem checkedAdd_zero (x : Text.I64) : ∃ z, Text.fits 0 = some z ∧ Text.checkedAdd z x = some x := by
  refine ⟨⟨0, by decide⟩, rfl, ?_⟩
  rw [Text.checkedAdd, zero_add]
  exact fits_self x

/-- An error means that the counter was there, and is left. -/
theorem atomic_incrby (delta : Text.I64) : (incrby key delta).Atomic := by
  refine atomic_upsert (fun b e h => ?_) fun e h => ?_
  · split at h
    · rfl
    · split at h
      · rfl
      · cases h
  · obtain ⟨z, hz, hadd⟩ := checkedAdd_zero delta
    simp [parseInt_zero, hz, hadd] at h

/-- An error means that the field was there, and is left. -/
theorem atomic_hincrby (field : Bytes) (delta : Text.I64) : (hincrby key field delta).Atomic := by
  refine atomic_upsert (fun b e h => ?_) fun e h => ?_
  · split at h
    · rfl
    · split at h
      · rfl
      · cases h
  · obtain ⟨z, hz, hadd⟩ := checkedAdd_zero delta
    simp [RedisHash.new, RedisHash.get, Fields.find, hz, hadd] at h

theorem atomic_hincrbyfloat (field : Bytes) (delta : F64) :
    (hincrbyfloat key field delta).Atomic := by
  refine atomic_upsert (fun b e h => ?_) fun e h => ?_
  · split at h
    · rfl
    · cases h
  · simp [RedisHash.new, RedisHash.get, Fields.find] at h

/-- The position is checked before the element is written. -/
theorem atomic_lset (index : ℤ) (val : Bytes) : (lset key index val).Atomic := by
  refine atomic_update fun l e h => ?_
  split at h
  · rfl
  · cases h

/-- `lset` answers false only without a list, or if it did not write. -/
theorem lset_false {s : Store} {index : ℤ} {val : Bytes}
    (h : (s.lset key index val).1 = .ok false) : (s.lset key index val).2 = s := by
  cases hkey : s[key]? with
  | none => rw [lset, update_none hkey]
  | some e =>
    cases hv : Kind.list.view e.value with
    | none => rw [lset, update_wrong hkey hv]
    | some l =>
      rw [lset, update_some hkey hv] at h ⊢
      rw [insert_wrap_eq_iff hkey hv]
      cases hidx : listIndex l index with
      | none => rfl
      | some i =>
        simp only [hidx, done, RedisList.setIndex] at h ⊢
        split at h
        · cases h
        · next hlt => rw [if_neg hlt]

/-- The sources are read before the destination is written. -/
theorem atomic_combineStore (g : RedisSet → List RedisSet → ExtTreeSet Bytes compare) (env : Env)
    (dst : String) (keys : List String) : (combineStore g env dst keys).Atomic := by
  intro s e h
  unfold combineStore at h ⊢
  split
  · rfl
  · next hres => simp [hres] at h

/-- `take` takes something exactly from the values with `avail`, and it is missing there
afterwards. -/
structure Takes (take : α → Option β × α) (avail : α → Prop) : Prop where
  avail_iff : ∀ a, (take a).1 ≠ none ↔ avail a
  changes : ∀ a, avail a → (take a).2 ≠ a

/-- A move that takes from the source and finds another type at the destination. -/
def Stranded (K : Kind α) (src dst : String) (avail : α → Prop) (s : Store) : Prop :=
  (∃ e a, s[src]? = some e ∧ K.view e.value = some a ∧ avail a) ∧
    ∃ e, s[dst]? = some e ∧ K.view e.value = none

section Move

variable {src dst : String} {take : α → Option β × α} {avail : α → Prop} {give : β → α → α}
  {s : Store}

theorem getElem?_insert_src {e : Entry} {a : α} (hsrc : s[src]? = some e)
    (hv : K.view e.value = some a) {e' : Entry} (hdst : s[dst]? = some e')
    (hv' : K.view e'.value = none) (e'' : Entry) : (s.insert src e'')[dst]? = some e' := by
  have hne : src ≠ dst := by
    rintro rfl
    rw [hsrc, Option.some.injEq] at hdst
    rw [hdst, hv'] at hv
    cases hv
  rw [FinMap.getElem?_insert, if_neg hne, hdst]

/-- A stranded move fails, with what it took lost. -/
theorem move_of_stranded (htake : Takes take avail) (h : Stranded K src dst avail s) :
    (move K src dst init take give s).1 = .error wrongType ∧
      (move K src dst init take give s).2 ≠ s := by
  obtain ⟨⟨e, a, hsrc, hv, ha⟩, e', hdst, hv'⟩ := h
  obtain ⟨b, hb⟩ := Option.ne_none_iff_exists'.mp ((htake.avail_iff a).mpr ha)
  rw [move_some hsrc hv hb, upsert_wrong (getElem?_insert_src hsrc hv hdst hv' _) hv']
  exact ⟨rfl, fun heq => htake.changes a ha ((insert_wrap_eq_iff hsrc hv).mp heq)⟩

/-- A move that is not stranded and fails changes nothing. -/
theorem move_of_not_stranded (htake : Takes take avail) (h : ¬ Stranded K src dst avail s)
    {msg : String} (herr : (move K src dst init take give s).1 = .error msg) :
    (move K src dst init take give s).2 = s := by
  cases hsrc : s[src]? with
  | none => rw [move_none hsrc]
  | some e =>
    cases hv : K.view e.value with
    | none => rw [move_wrong hsrc hv]
    | some a =>
      cases ht : (take a).1 with
      | none =>
        rw [move_empty hsrc hv ht] at herr
        cases herr
      | some b =>
        rw [move_some hsrc hv ht] at herr
        refine absurd ⟨⟨e, a, hsrc, hv, (htake.avail_iff a).mp (by simp [ht])⟩, ?_⟩ h
        -- The destination cannot be the source, which holds the type.
        obtain ⟨e', he', hv'⟩ := upsert_done_error herr
        rw [FinMap.getElem?_insert] at he'
        split at he'
        · rw [Option.some.injEq] at he'
          rw [← he', K.view_wrap] at hv'
          cases hv'
        · exact ⟨e', he', hv'⟩

end Move

end Store

/-! ## What is taken -/

/-- A pop takes something if the list has an element. -/
theorem RedisList.takes_pop (left : Bool) :
    Store.Takes (fun l : RedisList => if left then l.popFront else l.popBack)
      fun l => l.toVec ≠ [] where
  avail_iff l := by
    cases left <;> simp [popFront, popBack]
  changes l hne heq := by
    have hpos := List.length_pos_iff.mpr hne
    have hlen := congrArg (fun l => l.toVec.length) heq
    cases left <;> simp [popFront, popBack, toVec_map] at hlen <;> omega

theorem RedisSet.removeOne_ne {t : RedisSet} {m : Bytes} (hm : t.contains m = true) :
    (t.removeOne m).2 ≠ t := by
  intro heq
  cases t with
  | small v =>
    have hidx : v.1.idxOf m < v.1.length := List.idxOf_lt_length_iff.mpr (by simpa [contains] using hm)
    simp only [removeOne, dif_pos hidx, small.injEq, Subtype.ext_iff, Members.removeAt] at heq
    have hlen := (swapRemove_perm_eraseIdx hidx).length_eq
    rw [heq, List.length_eraseIdx_of_lt hidx] at hlen
    omega
  | large t =>
    simp only [removeOne, large.injEq] at heq
    have hmem : m ∈ t.erase m := by rw [heq]; exact hm
    simp at hmem

/-- A removal takes something if the member is there. -/
theorem RedisSet.takes_removeOne (m : Bytes) :
    Store.Takes (fun t : RedisSet => (if (t.removeOne m).1 then some m else none, (t.removeOne m).2))
      fun t => t.contains m = true where
  avail_iff t := by simp [removeOne_fst]
  changes _ hm := removeOne_ne hm

/-! ## The loops -/

/-- Once the key holds a hash, no field of the loop is refused. -/
theorem hsetLoop_ok {key : String} :
    ∀ (pairs : List (Bytes × Bytes)) {s : Store} {e : Entry} {h : RedisHash},
      s[key]? = some e → Kind.hash.view e.value = some h → ∃ n, (hsetLoop key pairs s).1 = .ok n
  | [], _, _, _, _, _ => ⟨0, rfl⟩
  | (f, v) :: pairs, s, e, h, hkey, hv => by
    have hstep := Store.hset_some hkey hv f v
    obtain ⟨n, hn⟩ := hsetLoop_ok pairs (h := (h.hset f v).2)
      (s := s.insert key { e with value := Kind.hash.wrap (h.hset f v).2 })
      FinMap.getElem?_insert_self (Kind.hash.view_wrap _)
    exact ⟨(h.hset f v).1 + n, by simp [hsetLoop, hstep, hn, Except.map]⟩

/-- Only the first pair can meet another type. -/
theorem atomic_hsetLoop (key : String) (pairs : List (Bytes × Bytes)) :
    (hsetLoop key pairs).Atomic := by
  intro s msg herr
  cases pairs with
  | nil => cases herr
  | cons p pairs =>
    obtain ⟨f, v⟩ := p
    cases hstep : s.hset key f v with
    | mk r s' =>
      cases r with
      | error e =>
        have hkeep := Store.atomic_upsert_done s e (congrArg Prod.fst hstep)
        simp only [hsetLoop, hstep]
        rw [← hkeep]
        exact (congrArg Prod.snd hstep).symm
      | ok n =>
        -- The first field is in, so the key holds a hash.
        simp only [hsetLoop, hstep] at herr
        obtain ⟨e, h, he, hv⟩ : ∃ e h, s'[key]? = some e ∧ Kind.hash.view e.value = some h :=
          Store.holds_of_upsert (congrArg Prod.fst hstep) (congrArg Prod.snd hstep)
        obtain ⟨m, hm⟩ := hsetLoop_ok pairs he hv
        rw [hm] at herr
        cases herr

namespace ZaddStep

/-- Whether the loop stops here. -/
def isBad : ZaddStep → Bool
  | bad => true
  | _ => false

/-- What is added before the loop stops. -/
def applied : List ZaddStep → List (F64 × Bytes)
  | [] => []
  | skip :: steps => applied steps
  | bad :: _ => []
  | add score member :: steps => (score, member) :: applied steps

end ZaddStep

section Zadd

variable {key : String} (flags : ZaddFlags) {s : Store} {e : Entry} {z : ZSet}

/-- At a sorted set, the pairs before a bad score are added, by induction on the steps. -/
theorem zaddLoop_some :
    ∀ (steps : List ZaddStep) {s : Store} {e : Entry} {z : ZSet},
      s[key]? = some e → Kind.zset.view e.value = some z →
      (zaddLoop key flags steps s).2 = s.insert key { e with
        value := Kind.zset.wrap (z.zaddAll flags (ZaddStep.applied steps)) } ∧
      ((zaddLoop key flags steps s).1.isOk = false ↔ steps.any ZaddStep.isBad = true)
  | [], s, e, z, hkey, hv => by
    refine ⟨?_, by simp [zaddLoop, Except.isOk, Except.toBool]⟩
    exact (Store.insert_view hkey hv).symm
  | .skip :: steps, s, e, z, hkey, hv => by
    simpa only [zaddLoop, ZaddStep.applied, List.any_cons, ZaddStep.isBad, Bool.false_or] using
      zaddLoop_some steps hkey hv
  | .bad :: steps, s, e, z, hkey, hv => by
    refine ⟨?_, by simp [zaddLoop, ZaddStep.isBad, Except.isOk, Except.toBool]⟩
    exact (Store.insert_view hkey hv).symm
  | .add x m :: steps, s, e, z, hkey, hv => by
    have hstep := Store.zadd_some hkey hv x m flags.nx flags.xx flags.gt flags.lt
    have ih := zaddLoop_some steps
      (s := s.insert key { e with
        value := Kind.zset.wrap (z.zadd x m flags.nx flags.xx flags.gt flags.lt).2 })
      FinMap.getElem?_insert_self (Kind.zset.view_wrap _)
    rw [FinMap.insert_insert] at ih
    simp only [zaddLoop, hstep, ZaddStep.applied, List.any_cons, ZaddStep.isBad, Bool.false_or]
    refine ⟨ih.1, ?_⟩
    rw [← ih.2]
    cases (zaddLoop key flags steps _).1 <;> simp [Except.map, Except.isOk, Except.toBool]

/-- At a missing key, the first pair that is applied creates a sorted set. -/
theorem zaddLoop_none (hkey : s[key]? = none) :
    ∀ steps : List ZaddStep,
      (ZaddStep.applied steps = [] → (zaddLoop key flags steps s).2 = s) ∧
      (ZaddStep.applied steps ≠ [] → (zaddLoop key flags steps s).2 = s.insert key
        ⟨Kind.zset.wrap (ZSet.new.zaddAll flags (ZaddStep.applied steps)), none⟩) ∧
      ((zaddLoop key flags steps s).1.isOk = false ↔ steps.any ZaddStep.isBad = true)
  | [] => by simp [zaddLoop, ZaddStep.applied, Except.isOk, Except.toBool]
  | .skip :: steps => by
    simpa only [zaddLoop, ZaddStep.applied, List.any_cons, ZaddStep.isBad, Bool.false_or] using
      zaddLoop_none hkey steps
  | .bad :: steps => by
    simp [zaddLoop, ZaddStep.applied, ZaddStep.isBad, Except.isOk, Except.toBool]
  | .add x m :: steps => by
    have hstep : s.zadd key x m flags.nx flags.xx flags.gt flags.lt =
        (.ok (ZSet.new.zadd x m flags.nx flags.xx flags.gt flags.lt).1,
          s.insert key
            ⟨Kind.zset.wrap (ZSet.new.zadd x m flags.nx flags.xx flags.gt flags.lt).2, none⟩) :=
      Store.upsert_none hkey
    have ih := zaddLoop_some flags steps
      (s := s.insert key
        ⟨Kind.zset.wrap (ZSet.new.zadd x m flags.nx flags.xx flags.gt flags.lt).2, none⟩)
      FinMap.getElem?_insert_self (Kind.zset.view_wrap _)
    rw [FinMap.insert_insert] at ih
    simp only [zaddLoop, hstep, ZaddStep.applied, List.any_cons, ZaddStep.isBad, Bool.false_or]
    refine ⟨fun h => (List.cons_ne_nil _ _ h).elim, fun _ => ih.1, ?_⟩
    rw [← ih.2]
    cases (zaddLoop key flags steps _).1 <;> simp [Except.map, Except.isOk, Except.toBool]

/-- At another type, nothing is added. -/
theorem zaddLoop_wrong (hkey : s[key]? = some e) (hv : Kind.zset.view e.value = none) :
    ∀ steps : List ZaddStep, (zaddLoop key flags steps s).2 = s
  | [] => rfl
  | .skip :: steps => zaddLoop_wrong hkey hv steps
  | .bad :: steps => rfl
  | .add x m :: steps => by
    have hstep : s.zadd key x m flags.nx flags.xx flags.gt flags.lt = (.error wrongType, s) :=
      Store.upsert_wrong hkey hv
    simp only [zaddLoop, hstep]

end Zadd

/-! ## Requests -/

namespace Request

/-- A request caught in the middle : an element or a member that was taken and cannot be
given to the destination, or a score of `ZADD` that is no number, after pairs that create
the key or do not leave each member the score that it had. -/
def Halfway (s : Store) : Request → Prop
  | lmove src dst _ _ => Store.Stranded .list src dst (fun l => l.toVec ≠ []) s
  | smove src dst member => Store.Stranded .set src dst (fun t => t.contains member = true) s
  | zadd key flags steps =>
    steps.any ZaddStep.isBad = true ∧
      match s[key]? with
      | none => ZaddStep.applied steps ≠ []
      | some e => ∃ z, Kind.zset.view e.value = some z ∧
          ¬ z.KeepsScores flags (ZaddStep.applied steps)
  | _ => False

variable {ctx : CommandContext} {env : Env} {s : Store}

section Outcome

variable {β : Type} {r : Except String β × Store} {fmt : β → Frame} {log : β → List Record}

theorem store_of : (Outcome.of r fmt log).store = r.2 := by
  unfold Outcome.of
  split <;> rfl

theorem log_change : (Outcome.change r fmt).log = [] := by
  unfold Outcome.change Outcome.of
  split <;> rfl

/-- If results are formatted as something else, an error reply is an error of the method. -/
theorem isError_of (hfmt : ∀ b, (fmt b).isError = false) :
    (Outcome.of r fmt log).reply.isError = true ↔ ∃ e, r.1 = .error e := by
  unfold Outcome.of
  split
  · next b hb => simp [hfmt, hb]
  · next e he => simp [he]

/-- An atomic operation that answers with an error changes nothing. -/
theorem keeps_of {o : Op β} (ho : o.Atomic) (hfmt : ∀ b, (fmt b).isError = false)
    (herr : (Outcome.of (o s) fmt log).reply.isError = true) :
    (Outcome.of (o s) fmt log).store = s := by
  obtain ⟨e, he⟩ := (isError_of hfmt).mp herr
  rw [store_of]
  exact ho s e he

end Outcome

theorem get_store_of_isSome {now : ℕ} {key : String} {v : Value}
    (h : (s.get now key).1 = some v) : (s.get now key).2 = s := by
  unfold Store.get at h ⊢
  split at h
  · rfl
  · split at h
    · cases h
    · next hexp => simp [hexp]

/-- A request that is not caught in the middle and answers with an error changes
nothing. -/
theorem run_store_of_isError {r : Request} (h : ¬ r.Halfway s)
    (herr : (r.run ctx env s).reply.isError = true) : (r.run ctx env s).store = s := by
  cases r with
  | get key | strlen key =>
    simp only [run] at herr ⊢
    split at herr
    · cases herr
    · next hv => exact get_store_of_isSome hv
    · cases herr
  | set key val dur nx xx =>
    simp only [run] at herr
    split at herr
    · cases herr
    · split at herr <;> cases herr
  | setnx key val =>
    simp only [run] at herr
    split at herr <;> cases herr
  | del _ | expire _ _ | persist _ | flush | mget _ | mset _ | getset _ _ => cases herr
  | append key suffix => exact keeps_of Store.atomic_upsert_done (fun _ => rfl) herr
  | incrby key delta record => exact keeps_of (Store.atomic_incrby delta) (fun _ => rfl) herr
  | push left key values =>
    cases left <;> exact keeps_of Store.atomic_upsert_done (fun _ => rfl) herr
  | pop left key count withCount =>
    have hfmt (v : List Bytes) : (poppedFrame withCount List.getLast? v).isError = false := by
      cases withCount <;> rfl
    cases left <;> exact keeps_of Store.atomic_update_done hfmt herr
  | lset key index val =>
    rw [run, Outcome.change, store_of]
    rw [run, Outcome.change, Outcome.of] at herr
    split at herr
    · next b hb =>
      cases b with
      | false => exact Store.lset_false hb
      | true => cases herr
    · next e he => exact Store.atomic_lset index val s e he
  | linsert | lrem | ltrim | hdel | srem | zrem | zpopmin | zpopmax | zremrangebyrank
  | zremrangebyscore => exact keeps_of Store.atomic_update_done (fun _ => rfl) herr
  | hset key pairs => exact keeps_of (atomic_hsetLoop key pairs) (fun _ => rfl) herr
  | hsetnx | sadd | zincrby => exact keeps_of Store.atomic_upsert_done (fun _ => rfl) herr
  | hincrby key field delta => exact keeps_of (Store.atomic_hincrby field delta) (fun _ => rfl) herr
  | hincrbyfloat key field delta =>
    exact keeps_of (Store.atomic_hincrbyfloat field delta) (fun _ => rfl) herr
  | spop key count =>
    have hfmt (v : List Bytes) : (poppedFrame count.isSome List.head? v).isError = false := by
      cases count <;> rfl
    exact keeps_of Store.atomic_update_done hfmt herr
  | combineStore op dst ks =>
    exact keeps_of (Store.atomic_combineStore op.fn env dst ks) (fun _ => rfl) herr
  | lmove src dst fromLeft toLeft =>
    obtain ⟨e, he⟩ := (isError_of fun _ => rfl).mp herr
    rw [run, Outcome.change, store_of]
    exact Store.move_of_not_stranded (RedisList.takes_pop fromLeft) h he
  | smove src dst member =>
    obtain ⟨e, he⟩ := (isError_of fun _ => rfl).mp herr
    rw [run, Outcome.change, store_of]
    rw [Store.smove] at he
    cases hmove : (Store.move Kind.set src dst RedisSet.new _ _ s).1 with
    | ok b =>
      rw [hmove] at he
      cases he
    | error msg => exact Store.move_of_not_stranded (RedisSet.takes_removeOne member) h hmove
  | zadd key flags steps =>
    obtain ⟨msg, hmsg⟩ := (isError_of fun _ => rfl).mp herr
    rw [run, store_of]
    have hbad : (zaddLoop key flags steps s).1.isOk = false := by rw [hmsg]; rfl
    cases hkey : s[key]? with
    | none =>
      obtain ⟨hnil, -, hiff⟩ := zaddLoop_none flags hkey steps
      refine hnil (not_not.mp fun hne => h ?_)
      rw [Halfway, hkey]
      exact ⟨hiff.mp hbad, hne⟩
    | some e =>
      cases hv : Kind.zset.view e.value with
      | none => exact zaddLoop_wrong flags hkey hv steps
      | some z =>
        obtain ⟨hstore, hiff⟩ := zaddLoop_some flags steps hkey hv
        rw [hstore, Store.insert_wrap_eq_iff hkey hv, ZSet.zaddAll_eq_iff_keepsScores]
        refine not_not.mp fun hne => h ?_
        rw [Halfway, hkey]
        exact ⟨hiff.mp hbad, z, hv, hne⟩
  | _ => first
    | rfl
    | exact store_of

theorem isError_of_isOk {β : Type} {r : Except String β × Store} {fmt : β → Frame}
    {log : β → List Record} (h : r.1.isOk = false) :
    (Outcome.of r fmt log).reply.isError = true := by
  unfold Outcome.of
  split
  · next b hb =>
    rw [hb] at h
    cases h
  · rfl

/-- A request caught in the middle answers with an error, and the store has changed. -/
theorem run_of_halfway {r : Request} (h : r.Halfway s) :
    (r.run ctx env s).reply.isError = true ∧ (r.run ctx env s).store ≠ s := by
  cases r with
  | lmove src dst fromLeft toLeft =>
    obtain ⟨herr, hne⟩ := Store.move_of_stranded (RedisList.takes_pop fromLeft) h
    rw [run, Outcome.change, store_of]
    exact ⟨isError_of_isOk (congrArg Except.isOk herr), hne⟩
  | smove src dst member =>
    obtain ⟨herr, hne⟩ := Store.move_of_stranded (RedisSet.takes_removeOne member) h
    rw [run, Outcome.change, store_of]
    refine ⟨isError_of_isOk ?_, hne⟩
    rw [Store.smove, herr]
    rfl
  | zadd key flags steps =>
    obtain ⟨hbad, h⟩ := h
    rw [run, store_of]
    cases hkey : s[key]? with
    | none =>
      rw [hkey] at h
      obtain ⟨-, hcons, hiff⟩ := zaddLoop_none flags hkey steps
      refine ⟨isError_of_isOk (hiff.mpr hbad), fun heq => ?_⟩
      have hsome := congrArg (fun t : Store => t[key]?) (hcons h)
      rw [heq, hkey, FinMap.getElem?_insert_self] at hsome
      cases hsome
    | some e =>
      rw [hkey] at h
      obtain ⟨z, hv, hne⟩ := h
      obtain ⟨hstore, hiff⟩ := zaddLoop_some flags steps hkey hv
      refine ⟨isError_of_isOk (hiff.mpr hbad), fun heq => hne ?_⟩
      rw [hstore, Store.insert_wrap_eq_iff hkey hv] at heq
      exact (ZSet.zaddAll_eq_iff_keepsScores flags).mp heq
  | _ => exact h.elim

end Request

/-! ## Frames -/

/-- Whether a frame is a data command : neither `CLUSTER` nor `MIGRATE`. -/
def isData : Frame → Bool
  | .array (some args) =>
    match bulkBytes args 0 with
    | some cmd => commandName cmd ≠ "CLUSTER" ∧ commandName cmd ≠ "MIGRATE"
    | none => true
  | _ => true

/-- What a frame asks of the store of the node that executes it. -/
def requestOf (ctx : CommandContext) (frame : Frame) : Option Request :=
  match route ctx frame with
  | .dispatch name args => (readCommand ctx name args).toOption
  | _ => none

/-- On a single node, a data command is answered or dispatched. -/
theorem route_of_isData {ctx : CommandContext} (hraft : ctx.raft = none)
    (hcluster : ctx.cluster = none) {frame : Frame} (hdata : isData frame = true) :
    (∃ f, route ctx frame = .reply f) ∨ ∃ name args, route ctx frame = .dispatch name args := by
  unfold route
  split
  · exact Or.inl ⟨_, rfl⟩
  · next args _ =>
    cases hcmd : bulkBytes args 0 with
    | none => exact Or.inl ⟨_, rfl⟩
    | some cmd =>
      have hname : ¬ (commandName cmd = "CLUSTER" ∨ commandName cmd = "MIGRATE") := by
        simpa [isData, hcmd] using hdata
      simp only [routeCommand_single hraft hcluster, routeHere, if_neg hname]
      split
      · exact Or.inl ⟨_, rfl⟩
      · exact Or.inr ⟨_, _, rfl⟩
  · exact Or.inl ⟨_, rfl⟩

/-- A frame that makes no request of the store is answered without it, and one that does
is run on it. -/
theorem execute_of_isData {ctx : CommandContext} (hraft : ctx.raft = none)
    (hcluster : ctx.cluster = none) {frame : Frame} (hdata : isData frame = true)
    (elsewhere : Route → Store → Outcome) (env : Env) :
    (∃ r, requestOf ctx frame = some r ∧
      ∀ s, execute ctx elsewhere env frame s = r.run ctx env s) ∨
    requestOf ctx frame = none ∧ ∃ f, ∀ s, execute ctx elsewhere env frame s = ⟨f, s, []⟩ := by
  rcases route_of_isData hraft hcluster hdata with ⟨f, hf⟩ | ⟨name, args, hroute⟩
  · exact Or.inr ⟨by simp [requestOf, hf], f, fun s => by simp [execute, hf]⟩
  · cases hread : readCommand ctx name args with
    | ok r =>
      exact Or.inl ⟨r, by simp [requestOf, hroute, hread, Except.toOption],
        fun s => by simp [execute, hroute, dispatch, hread]⟩
    | error f =>
      exact Or.inr ⟨by simp [requestOf, hroute, hread, Except.toOption],
        f, fun s => by simp [execute, hroute, dispatch, hread]⟩

/-- On a single node a data command that answers with an error leaves the store as it was,
exactly if it does not ask for a move from a list or a set with something to move to a key
of another type, nor for a `ZADD` with a score that is no number after pairs that change
the store. -/
theorem error_reply_keeps_store_iff {ctx : CommandContext} (hraft : ctx.raft = none)
    (hcluster : ctx.cluster = none) {frame : Frame} (hdata : isData frame = true)
    (elsewhere : Route → Store → Outcome) (env : Env) (s : Store) :
    ((execute ctx elsewhere env frame s).reply.isError = true →
      (execute ctx elsewhere env frame s).store = s) ↔
    ∀ r, requestOf ctx frame = some r → ¬ r.Halfway s := by
  rcases execute_of_isData hraft hcluster hdata elsewhere env with ⟨r, hr, hrun⟩ | ⟨hnone, f, hf⟩
  · rw [hrun]
    constructor
    · rintro h r' hr' hhalf
      rw [hr, Option.some.injEq] at hr'
      subst hr'
      obtain ⟨herr, hne⟩ : _ ∧ (r.run ctx env s).store ≠ s := Request.run_of_halfway hhalf
      exact hne (h herr)
    · exact fun h herr => Request.run_store_of_isError (h r hr) herr
  · simp [hf, hnone]

section Failing

/-- A list, a set, a sorted set and a string. -/
def mixedStore : Store :=
  (((∅ : Store).insert "l" ⟨.list (.small [Utf8.toBytes "x"]), none⟩).insert "t"
    ⟨.set (RedisSet.new.sadd [Utf8.toBytes "m"]).2, none⟩).insert "k" ⟨.string [], none⟩

/-- Serve a command on `mixedStore`. -/
def serveMixed (words : List String) : Outcome :=
  execute .standalone (fun _ s => ⟨.ok, s, []⟩) (.plain 0) (.command words) mixedStore

/-- `LMOVE` and `SMOVE` to a key of another type lose what they took, and a `ZADD` with a
bad second score has created the key. -/
theorem error_after_partial_change :
    ((serveMixed ["LMOVE", "l", "k", "LEFT", "LEFT"]).reply.isError = true ∧
      (serveMixed ["LMOVE", "l", "k", "LEFT", "LEFT"]).store ≠ mixedStore) ∧
    ((serveMixed ["SMOVE", "t", "k", "m"]).reply.isError = true ∧
      (serveMixed ["SMOVE", "t", "k", "m"]).store ≠ mixedStore) ∧
    (serveMixed ["ZADD", "z", "1", "a", "x", "b"]).reply.isError = true ∧
      (serveMixed ["ZADD", "z", "1", "a", "x", "b"]).store ≠ mixedStore := by
  refine ⟨⟨by decide, fun h => ?_⟩, ⟨by decide, fun h => ?_⟩,
    by decide +kernel, fun h => ?_⟩
  · have hlen := congrArg (fun s : Store => (s.llen "l").toOption) h
    exact absurd hlen (by decide)
  · have hcard := congrArg (fun s : Store => (s.scard "t").toOption) h
    exact absurd hcard (by decide)
  · have hsize := congrArg Store.keysCount h
    exact absurd hsize (by decide +kernel)

/-- A test for the request of an `LMOVE` from `key`. -/
def movesFrom (key : String) : Option Request → Bool
  | some (.lmove src _ _ _) => src = key
  | _ => false

/-- An `LMOVE` from a key of another type changes nothing. -/
theorem error_reply_keeps_mixedStore :
    (serveMixed ["LMOVE", "k", "t", "LEFT", "LEFT"]).reply.isError = true ∧
      (serveMixed ["LMOVE", "k", "t", "LEFT", "LEFT"]).store = mixedStore := by
  have herr : (serveMixed ["LMOVE", "k", "t", "LEFT", "LEFT"]).reply.isError = true := by
    decide
  refine ⟨herr, (@error_reply_keeps_store_iff .standalone rfl rfl _ (by decide)
    _ _ _).mpr (fun r hr => ?_) herr⟩
  have hsrc : movesFrom "k"
      (requestOf .standalone (.command ["LMOVE", "k", "t", "LEFT", "LEFT"])) = true := by decide
  rw [hr] at hsrc
  cases r with
  | lmove src dst fromLeft toLeft =>
    obtain rfl : src = "k" := of_decide_eq_true hsrc
    rintro ⟨⟨e, l, he, hv, -⟩, -⟩
    have hstring : mixedStore["k"]? = some ⟨.string [], none⟩ := FinMap.getElem?_insert_self
    rw [hstring, Option.some.injEq] at he
    rw [← he] at hv
    cases hv
  | _ => cases hsrc

end Failing

end LoonyRedis
