import LoonyRedis.ErrorReplies

/-!
# Expired keys

An expired entry stays in the store until something removes it, so a command treats it as
absent only if the methods it calls look at the time. `TreatsAsAbsent` compares a command
on a store with the same command on the store without its expired entries
(`Store.live`) : the reply is the same, and so are the live entries afterwards.

`get`, `exists`, `expire`, `pttl`, `type_of` and the listings look at the time. The three
patterns `read`, `update` and `upsert` do not : a lookup notices an expired value unless it
gives the answer of a missing key (`Quiet`), and a method that creates a missing key does
not create one that has expired (`Fresh`).
-/

namespace LoonyRedis

open Std

namespace Store

variable {now : ℕ} {s : Store} {key : String} {e : Entry}

/-! ## The live part of a store -/

/-- A look-up in the live entries. -/
theorem getElem?_live : (s.live now)[key]? = s[key]?.filter fun e => !e.isExpired now :=
  ExtTreeMap.getElem?_filter'

theorem getElem?_live_of_live (h : s[key]? = some e) (he : e.isExpired now = false) :
    (s.live now)[key]? = some e := by
  simp [getElem?_live, h, he]

theorem getElem?_live_of_expired (h : s[key]? = some e) (he : e.isExpired now = true) :
    (s.live now)[key]? = none := by
  simp [getElem?_live, h, he]

theorem getElem?_live_of_none (h : s[key]? = none) : (s.live now)[key]? = none := by
  simp [getElem?_live, h]

/-- Removing the expired entries twice. -/
theorem live_live : (s.live now).live now = s.live now := by
  ext k : 1
  simp [getElem?_live, Option.filter_filter]

/-- A live entry that is written is live. -/
theorem live_insert_live (he : e.isExpired now = false) :
    live now (s.insert key e) = (s.live now).insert key e := by
  ext k : 1
  rw [getElem?_live, FinMap.getElem?_insert, FinMap.getElem?_insert, getElem?_live]
  split <;> simp [he]

/-- An expired entry that is written leaves the key without a live one. -/
theorem live_insert_expired (he : e.isExpired now = true) :
    live now (s.insert key e) = (s.live now).erase key := by
  ext k : 1
  rw [getElem?_live, FinMap.getElem?_insert, FinMap.getElem?_erase, getElem?_live]
  split <;> simp [he]

/-- A key is erased from the live entries. -/
theorem live_erase : live now (s.erase key) = (s.live now).erase key := by
  ext k : 1
  rw [getElem?_live, FinMap.getElem?_erase, FinMap.getElem?_erase, getElem?_live]
  split <;> rfl

theorem live_change_live (he : e.isExpired now = false) (v : Value) :
    live now (s.insert key { e with value := v }) =
      (s.live now).insert key { e with value := v } :=
  live_insert_live he

/-- An expired entry that is changed and stays expired is not seen. -/
theorem live_insert_of_expired (h : s[key]? = some e) (he : e.isExpired now = true)
    (v : Value) : live now (s.insert key { e with value := v }) = s.live now := by
  rw [live_insert_expired (by exact he),
    FinMap.erase_of_getElem? (getElem?_live_of_expired h he)]

/-- `key` does not hold an expired entry. -/
def Fresh (now : ℕ) (key : String) (s : Store) : Prop :=
  ∀ e, s[key]? = some e → e.isExpired now = false

/-- If `key` holds an expired entry, it is of the type of `K`, with a value in `q`. -/
def Quiet {α : Type} (now : ℕ) (K : Kind α) (key : String) (q : α → Prop) (s : Store) : Prop :=
  ∀ e, s[key]? = some e → e.isExpired now = true → ∃ a, K.view e.value = some a ∧ q a

/-- A move that has nothing to take from an expired source, and does not give to an expired
destination. -/
def MoveQuiet {α : Type} (now : ℕ) (K : Kind α) (src dst : String) (avail : α → Prop)
    (s : Store) : Prop :=
  Quiet now K src (fun a => ¬ avail a) s ∧
    ∀ e, s[src]? = some e → e.isExpired now = false → ∀ a, K.view e.value = some a → avail a →
      Fresh now dst s

/-- A key that has not expired is live. -/
theorem getElem?_live_of_fresh (h : Fresh now key s) : (s.live now)[key]? = s[key]? := by
  cases hkey : s[key]? with
  | none => exact getElem?_live_of_none hkey
  | some e => exact getElem?_live_of_live hkey (h e hkey)

/-- A change of a key that has not expired is the same change of the live part. -/
theorem upsert_live {α β : Type} {K : Kind α} {init : α} {f : α → Except String β × α}
    (h : Fresh now key s) : upsert K key init f (s.live now) =
      ((upsert K key init f s).1, live now (upsert K key init f s).2) := by
  have hkey := getElem?_live_of_fresh h
  cases hs : s[key]? with
  | none =>
    rw [hs] at hkey
    rw [upsert_none hkey, upsert_none hs, live_insert_live rfl]
  | some e =>
    rw [hs] at hkey
    cases hv : K.view e.value with
    | none => rw [upsert_wrong hkey hv, upsert_wrong hs hv]
    | some a =>
      rw [upsert_some hkey hv, upsert_some hs hv, live_change_live (h e hs)]

/-- A change of a key keeps its expiry, and a new key has none. -/
theorem expiresAt_upsert {α β : Type} (K : Kind α) (init : α) (f : α → Except String β × α)
    (s : Store) : ((upsert K key init f s).2[key]?).map Entry.expiresAt =
      some (s[key]?.bind Entry.expiresAt) := by
  cases hs : s[key]? with
  | none => simp [upsert_none hs]
  | some e =>
    cases hv : K.view e.value with
    | none => simp [upsert_wrong hs hv, hs]
    | some a => simp [upsert_some hs hv]

/-- A change that cannot fail gives its result, or finds another type. -/
theorem upsert_done_fst {α β : Type} {K : Kind α} {init : α} {b : β} {f : α → α} :
    (upsert K key init (fun a => done (b, f a)) s).1 = .ok b ∨
      (upsert K key init (fun a => done (b, f a)) s).1 = .error wrongType := by
  cases hs : s[key]? with
  | none => exact Or.inl (by rw [upsert_none hs]; rfl)
  | some e =>
    cases hv : K.view e.value with
    | none => exact Or.inr (by rw [upsert_wrong hs hv])
    | some a => exact Or.inl (by rw [upsert_some hs hv]; rfl)

/-- A live entry over a live one expires no key and revives none. -/
theorem fresh_insert_live {dst : String} {e' : Entry} (hs : s[key]? = some e)
    (he : e.isExpired now = false) (he' : e'.isExpired now = false) :
    Fresh now dst (s.insert key e') ↔ Fresh now dst s := by
  unfold Fresh
  rw [FinMap.getElem?_insert]
  split
  · next heq => simp [← heq, hs, he, he']
  · rfl

/-- A key that keeps its expiry stays fresh. -/
theorem fresh_of_expiresAt {s' : Store} (h : Fresh now key s)
    (hexp : (s'[key]?).map Entry.expiresAt = some (s[key]?.bind Entry.expiresAt)) :
    Fresh now key s' := by
  intro e he
  rw [he, Option.map_some, Option.some.injEq] at hexp
  unfold Entry.isExpired
  rw [hexp]
  cases hs : s[key]? with
  | none => rfl
  | some e' => exact h e' hs

end Store

/-- A method that makes sure that `key` is there, and sees only `key`. -/
structure Op.Creates {β : Type} (o : Op β) (key : String) : Prop where
  expiresAt : ∀ s : Store, ((o s).2[key]?).map Entry.expiresAt = some (s[key]?.bind Entry.expiresAt)
  live : ∀ {now : ℕ} {s : Store}, Store.Fresh now key s →
    o (s.live now) = ((o s).1, (o s).2.live now)

/-- `upsert` creates a missing key. -/
theorem Store.creates_upsert {α β : Type} {K : Kind α} {key : String} {init : α}
    {f : α → Except String β × α} : (upsert K key init f).Creates key where
  expiresAt := expiresAt_upsert K init f
  live := upsert_live

/-! ## The loops -/

section Loops

variable {now : ℕ} {key : String}

theorem bind_expiresAt {o : Option Entry} {x : Option ℕ} (h : o.map Entry.expiresAt = some x) :
    o.bind Entry.expiresAt = x := by
  obtain ⟨e, rfl, rfl⟩ := Option.map_eq_some_iff.mp h
  rfl

/-- Setting fields keeps the expiry. -/
theorem expiresAt_hsetLoop : ∀ (pairs : List (Bytes × Bytes)) {s : Store} {x : Option ℕ},
    (s[key]?).map Entry.expiresAt = some x →
      ((hsetLoop key pairs s).2[key]?).map Entry.expiresAt = some x
  | [], _, _, h => h
  | (f, v) :: pairs, s, x, h => by
    have hstep : ((s.hset key f v).2[key]?).map Entry.expiresAt = _ := Store.expiresAt_upsert _ _ _ s
    rw [bind_expiresAt h] at hstep
    unfold hsetLoop
    split
    · next heq => rwa [heq] at hstep
    · next heq => exact expiresAt_hsetLoop pairs (by rwa [heq] at hstep)

/-- Setting fields of a fresh key does not look at the expired entries. -/
theorem hsetLoop_live : ∀ (pairs : List (Bytes × Bytes)) {s : Store}, Store.Fresh now key s →
    hsetLoop key pairs (s.live now) =
      ((hsetLoop key pairs s).1, (hsetLoop key pairs s).2.live now)
  | [], _, _ => rfl
  | (f, v) :: pairs, s, hfresh => by
    have hstep : Store.hset key f v (s.live now) =
        ((s.hset key f v).1, (s.hset key f v).2.live now) := Store.upsert_live hfresh
    have hfresh' : Store.Fresh now key (s.hset key f v).2 :=
      Store.fresh_of_expiresAt hfresh (Store.expiresAt_upsert _ _ _ s)
    simp only [hsetLoop, hstep]
    cases hr : s.hset key f v with
    | mk r s' =>
      rw [hr] at hfresh'
      cases r with
      | error e => rfl
      | ok n => simp only [hsetLoop_live pairs hfresh']

/-- The first pair creates a missing key. -/
theorem creates_hsetLoop (p : Bytes × Bytes) (pairs : List (Bytes × Bytes)) :
    Op.Creates (hsetLoop key (p :: pairs)) key where
  expiresAt s := by
    have hstep : ((s.hset key p.1 p.2).2[key]?).map Entry.expiresAt = _ :=
      Store.expiresAt_upsert _ _ _ s
    unfold hsetLoop
    split
    · next heq => rwa [heq] at hstep
    · next heq => exact expiresAt_hsetLoop pairs (by rwa [heq] at hstep)
  live := hsetLoop_live (p :: pairs)

variable {flags : ZaddFlags}

/-- Adding members keeps the expiry. -/
theorem expiresAt_zaddLoop : ∀ (steps : List ZaddStep) {s : Store} {x : Option ℕ},
    (s[key]?).map Entry.expiresAt = some x →
      ((zaddLoop key flags steps s).2[key]?).map Entry.expiresAt = some x
  | [], _, _, h => h
  | .skip :: steps, _, _, h => expiresAt_zaddLoop steps h
  | .bad :: _, _, _, h => h
  | .add score member :: steps, s, x, h => by
    have hstep : ((s.zadd key score member flags.nx flags.xx flags.gt flags.lt).2[key]?).map
        Entry.expiresAt = _ := Store.expiresAt_upsert _ _ _ s
    rw [bind_expiresAt h] at hstep
    unfold zaddLoop
    split
    · next heq => rwa [heq] at hstep
    · next heq => exact expiresAt_zaddLoop steps (by rwa [heq] at hstep)

/-- Adding members to a fresh key does not look at the expired entries. -/
theorem zaddLoop_live : ∀ (steps : List ZaddStep) {s : Store}, Store.Fresh now key s →
    zaddLoop key flags steps (s.live now) =
      ((zaddLoop key flags steps s).1, (zaddLoop key flags steps s).2.live now)
  | [], _, _ => rfl
  | .skip :: steps, _, hfresh => zaddLoop_live steps hfresh
  | .bad :: _, _, _ => rfl
  | .add score member :: steps, s, hfresh => by
    have hstep : Store.zadd key score member flags.nx flags.xx flags.gt flags.lt (s.live now) =
        ((s.zadd key score member flags.nx flags.xx flags.gt flags.lt).1,
          (s.zadd key score member flags.nx flags.xx flags.gt flags.lt).2.live now) :=
      Store.upsert_live hfresh
    have hfresh' : Store.Fresh now key
        (s.zadd key score member flags.nx flags.xx flags.gt flags.lt).2 :=
      Store.fresh_of_expiresAt hfresh (Store.expiresAt_upsert _ _ _ s)
    simp only [zaddLoop, hstep]
    cases hr : s.zadd key score member flags.nx flags.xx flags.gt flags.lt with
    | mk r s' =>
      rw [hr] at hfresh'
      cases r with
      | error e => rfl
      | ok n => simp only [zaddLoop_live steps hfresh']

/-- The first pair that is applied creates a missing key. -/
theorem creates_zaddLoop : ∀ (steps : List ZaddStep), ZaddStep.applied steps ≠ [] →
    Op.Creates (zaddLoop key flags steps) key
  | .skip :: steps, h => creates_zaddLoop steps h
  | .add score member :: steps, _ =>
    { expiresAt := fun s => by
        have hstep : ((s.zadd key score member flags.nx flags.xx flags.gt flags.lt).2[key]?).map
            Entry.expiresAt = _ := Store.expiresAt_upsert _ _ _ s
        unfold zaddLoop
        split
        · next heq => rwa [heq] at hstep
        · next heq => exact expiresAt_zaddLoop steps (by rwa [heq] at hstep)
      live := zaddLoop_live (.add score member :: steps) }
  | [], h => absurd rfl h
  | .bad :: _, h => absurd rfl h

/-- A loop without a member to add does not look at the store. -/
theorem zaddLoop_of_applied_nil : ∀ (steps : List ZaddStep), ZaddStep.applied steps = [] →
    ∃ r, ∀ s : Store, zaddLoop key flags steps s = (r, s)
  | [], _ => ⟨_, fun _ => rfl⟩
  | .skip :: steps, h => zaddLoop_of_applied_nil steps h
  | .bad :: _, _ => ⟨_, fun _ => rfl⟩

end Loops

/-! ## Comparison of the two stores -/

/-- On a store and on its live part, a command gives the same reply and the same live
entries. -/
def TreatsAsAbsent (now : ℕ) (o : Store → Outcome) (s : Store) : Prop :=
  (o s).reply = (o (s.live now)).reply ∧
    (o s).store.live now = (o (s.live now)).store.live now

namespace TreatsAsAbsent

section Patterns

variable {α β : Type} {now : ℕ} {K : Kind α} {key : String} {s : Store} {dflt : β} {g : α → β}
  {f : α → Except String β × α} {fmt : β → Frame} {log : β → List Record} {q : α → Prop}

/-- The reply to a result. -/
def replyOf (fmt : β → Frame) : Except String β → Frame
  | .ok b => fmt b
  | .error e => .error e

theorem reply_of (r : Except String β × Store) :
    (Outcome.of r fmt log).reply = replyOf fmt r.1 := by
  unfold Outcome.of replyOf
  split <;> simp_all

/-- A method whose result on the live part is the one on the store. -/
theorem of_live {o : Op β} (h : o (s.live now) = ((o s).1, (o s).2.live now)) :
    TreatsAsAbsent now (fun s => .of (o s) fmt log) s := by
  simp only [TreatsAsAbsent, reply_of, Request.store_of, h, Store.live_live, and_self]

/-- A change in place notices an expired value unless it gives the answer of a missing
key. -/
theorem update (hq : ∀ a, replyOf fmt (f a).1 = fmt dflt ↔ q a)
    (hdflt : fmt dflt ≠ .error wrongType) :
    TreatsAsAbsent now (fun s => .of (s.update K key dflt f) fmt log) s ↔
      Store.Quiet now K key q s := by
  cases hs : s[key]? with
  | none =>
    refine iff_of_true (of_live ?_) fun e he => by rw [hs] at he; cases he
    rw [Store.update_none hs, Store.update_none (Store.getElem?_live_of_none hs)]
  | some e =>
    cases hexp : e.isExpired now with
    | false =>
      have hkey := Store.getElem?_live_of_live hs hexp
      refine iff_of_true (of_live ?_) fun e' he' hexp' => ?_
      · cases hv : K.view e.value with
        | none => rw [Store.update_wrong hs hv, Store.update_wrong hkey hv]
        | some a =>
          rw [Store.update_some hs hv, Store.update_some hkey hv, Store.live_change_live hexp]
      · rw [hs, Option.some.injEq] at he'
        rw [← he', hexp] at hexp'
        cases hexp'
    | true =>
      have hkey := Store.getElem?_live_of_expired hs hexp
      have hquiet : Store.Quiet now K key q s ↔ ∃ a, K.view e.value = some a ∧ q a := by
        simp [Store.Quiet, hs, hexp]
      rw [hquiet]
      simp only [TreatsAsAbsent, reply_of, Request.store_of, Store.update_none hkey, Store.live_live]
      cases hv : K.view e.value with
      | none =>
        rw [Store.update_wrong hs hv]
        simpa [replyOf] using fun h => absurd h.symm hdflt
      | some a =>
        rw [Store.update_some hs hv]
        simp only [Store.live_insert_of_expired hs hexp, and_true, Option.some.injEq,
          exists_eq_left', replyOf]
        exact hq a

/-- A change in place that never gives the answer of a missing key. -/
theorem update_ne (hne : ∀ a, replyOf fmt (f a).1 ≠ fmt dflt) (hdflt : fmt dflt ≠ .error wrongType) :
    TreatsAsAbsent now (fun s => .of (s.update K key dflt f) fmt log) s ↔
      Store.Fresh now key s := by
  refine (update (fun a => iff_false_intro (hne a)) hdflt).trans ?_
  simp [Store.Quiet, Store.Fresh]

/-- A lookup is a change that changes nothing. -/
theorem read_eq_update : ((s.read K key dflt g, s) : Except String β × Store) =
    s.update K key dflt fun a => Store.done (g a, a) := by
  cases hs : s[key]? with
  | none => rw [Store.read_none hs, Store.update_none hs]
  | some e =>
    cases hv : K.view e.value with
    | none => rw [Store.read_wrong hs hv, Store.update_wrong hs hv]
    | some a =>
      rw [Store.read_some hs hv, Store.update_some hs hv, Store.done, Store.insert_view hs hv]

/-- A lookup notices an expired value unless it gives the answer of a missing key. -/
theorem read (hq : ∀ a, fmt (g a) = fmt dflt ↔ q a) (hdflt : fmt dflt ≠ .error wrongType) :
    TreatsAsAbsent now (fun s => .query s (s.read K key dflt g) fmt) s ↔
      Store.Quiet now K key q s := by
  simp only [Outcome.query, Outcome.change, read_eq_update]
  exact update hq hdflt

/-- A method that creates a missing key does not create one that has expired. -/
theorem creates {o : Op β} (ho : o.Creates key) :
    TreatsAsAbsent now (fun s => .of (o s) fmt log) s ↔ Store.Fresh now key s := by
  refine ⟨fun h e hs => ?_, fun h => of_live (ho.live h)⟩
  by_contra hexp
  rw [Bool.not_eq_false] at hexp
  have hkey := congrArg (fun t : Store => t[key]?) h.2
  simp only [Request.store_of, Store.getElem?_live] at hkey
  obtain ⟨e₁, he₁, hexp₁⟩ := Option.map_eq_some_iff.mp (ho.expiresAt s)
  obtain ⟨e₂, he₂, hexp₂⟩ := Option.map_eq_some_iff.mp (ho.expiresAt (s.live now))
  rw [hs, Option.bind_some] at hexp₁
  rw [Store.getElem?_live_of_expired hs hexp, Option.bind_none] at hexp₂
  have h₁ : e₁.isExpired now = true := by rw [← hexp, Entry.isExpired, hexp₁]; rfl
  have h₂ : e₂.isExpired now = false := by rw [Entry.isExpired, hexp₂]
  simp [he₁, he₂, Option.filter, h₁, h₂] at hkey

/-- A move notices an expired source with something to take, and does not create a
destination that has expired. -/
theorem move {src dst : String} {init : α} {take : α → Option β × α} {avail : α → Prop}
    {give : β → α → α} {fmt : Option β → Frame} (htake : Store.Takes take avail)
    (hsome : ∀ b, fmt (some b) ≠ fmt none) (hnone : fmt none ≠ .error wrongType) :
    TreatsAsAbsent now (fun s => .change (s.move K src dst init take give) fmt) s ↔
      Store.MoveQuiet now K src dst avail s := by
  have htake' (a : α) : (take a).1 = none ↔ ¬ avail a := by
    rw [← htake.avail_iff, not_not]
  cases hs : s[src]? with
  | none =>
    refine iff_of_true (of_live ?_) ⟨fun e he => by simp [hs] at he, fun e he => by simp [hs] at he⟩
    rw [Store.move_none hs, Store.move_none (Store.getElem?_live_of_none hs)]
  | some e =>
    cases hexp : e.isExpired now with
    | false =>
      have hkey := Store.getElem?_live_of_live hs hexp
      have hquiet : Store.MoveQuiet now K src dst avail s ↔
          ∀ a, K.view e.value = some a → avail a → Store.Fresh now dst s := by
        simp [Store.MoveQuiet, Store.Quiet, hs, hexp]
      rw [hquiet]
      cases hv : K.view e.value with
      | none =>
        refine iff_of_true (of_live ?_) fun a ha => nomatch ha
        rw [Store.move_wrong hs hv, Store.move_wrong hkey hv]
      | some a =>
        cases ht : (take a).1 with
        | none =>
          refine iff_of_true (of_live ?_) fun a' ha' havail => ?_
          · rw [Store.move_empty hs hv ht, Store.move_empty hkey hv ht, Store.live_change_live hexp]
          · rw [Option.some.injEq] at ha'
            exact absurd (ha' ▸ havail) ((htake' a).mp ht)
        | some b =>
          have havail : avail a := (htake.avail_iff a).mp (by simp [ht])
          have hcreate : TreatsAsAbsent now
              (fun s => .of (s.upsert K dst init fun a => Store.done (some b, give b a)) fmt
                fun _ => [])
              (s.insert src { e with value := K.wrap (take a).2 }) ↔ _ :=
            creates Store.creates_upsert
          rw [Store.fresh_insert_live hs hexp (by exact hexp)] at hcreate
          simp only [Option.some.injEq, forall_eq', havail, forall_const]
          rw [← hcreate]
          simp only [TreatsAsAbsent, Outcome.change, Store.move_some hs hv ht,
            Store.move_some hkey hv ht, Store.live_change_live hexp]
    | true =>
      have hkey := Store.getElem?_live_of_expired hs hexp
      have hquiet : Store.MoveQuiet now K src dst avail s ↔
          ∃ a, K.view e.value = some a ∧ ¬ avail a := by
        simp [Store.MoveQuiet, Store.Quiet, hs, hexp]
      rw [hquiet]
      simp only [TreatsAsAbsent, Outcome.change, reply_of, Request.store_of, Store.move_none hkey,
        Store.live_live]
      cases hv : K.view e.value with
      | none =>
        rw [Store.move_wrong hs hv]
        simpa [replyOf] using fun h => absurd h.symm hnone
      | some a =>
        simp only [Option.some.injEq, exists_eq_left', ← htake' a]
        cases ht : (take a).1 with
        | none =>
          rw [Store.move_empty hs hv ht]
          simp [replyOf, Store.live_insert_of_expired hs hexp]
        | some b =>
          rw [Store.move_some hs hv ht]
          refine iff_of_false (fun h => ?_) (by simp)
          rcases Store.upsert_done_fst with hfst | hfst
          · exact hsome b (by rw [hfst] at h; exact h.1)
          · exact hnone (by rw [hfst] at h; exact h.1.symm)

end Patterns

end TreatsAsAbsent

/-! ## Methods that look at the time -/

namespace Store

variable {now : ℕ} {s : Store} {key : String}

/-- What a lookup of `key` sees of the live part. -/
theorem lookup_live {γ : Type} {absent : γ} {f : Entry → γ} :
    (match (s.live now)[key]? with
      | none => absent
      | some e => if e.isExpired now then absent else f e) =
    match s[key]? with
      | none => absent
      | some e => if e.isExpired now then absent else f e := by
  cases hs : s[key]? with
  | none => rw [getElem?_live_of_none hs]
  | some e =>
    cases hexp : e.isExpired now with
    | false => simp [getElem?_live_of_live hs hexp, hexp]
    | true => simp [getElem?_live_of_expired hs hexp, hexp]

/-- A look at a key does not see the expired entries. -/
theorem get_live : get now key (s.live now) = ((get now key s).1, (get now key s).2.live now) := by
  unfold get
  cases hs : s[key]? with
  | none => rw [getElem?_live_of_none hs]
  | some e =>
    cases hexp : e.isExpired now with
    | false => simp [getElem?_live_of_live hs hexp, hexp]
    | true =>
      have hnone := getElem?_live_of_expired hs hexp
      simp [hnone, hexp, live_erase, FinMap.erase_of_getElem? hnone]

/-- `EXISTS` does not see the expired entries. -/
theorem exists_live : exists_ now key (s.live now) = exists_ now key s := by
  unfold exists_
  cases hs : s[key]? with
  | none => rw [getElem?_live_of_none hs]
  | some e =>
    cases hexp : e.isExpired now with
    | false => simp [getElem?_live_of_live hs hexp, hexp]
    | true => simp [getElem?_live_of_expired hs hexp, hexp]

/-- `EXPIRE` does not see the expired entries. -/
theorem expire_live {ttl : ℕ} : expire now key ttl (s.live now) =
    ((expire now key ttl s).1, (expire now key ttl s).2.live now) := by
  unfold expire
  cases hs : s[key]? with
  | none => rw [getElem?_live_of_none hs]
  | some e =>
    cases hexp : e.isExpired now with
    | false =>
      have hnew : ({ e with expiresAt := some (now + ttl) } : Entry).isExpired now = false := by
        simp [Entry.isExpired]
      simp [getElem?_live_of_live hs hexp, hexp, live_insert_live hnew]
    | true => simp [getElem?_live_of_expired hs hexp, hexp]

/-- `SET` does not see the expired entries. -/
theorem set_live {v : Value} {ttl : Option ℕ} :
    set now key v ttl (s.live now) = (set now key v ttl s).live now := by
  have hnew : (⟨v, ttl.map (now + ·)⟩ : Entry).isExpired now = false := by
    cases ttl <;> simp [Entry.isExpired]
  rw [set, set, live_insert_live hnew]

/-- `GETSET` does not see the expired entries. -/
theorem getset_live {v : Bytes} : getset now key v (s.live now) =
    ((getset now key v s).1, (getset now key v s).2.live now) := by
  simp only [getset, get_live, set_live]

/-- The count of one key in `del`. -/
theorem contains_live : (if (s.live now).contains key then 1 else 0) ≤
      (if s.contains key then 1 else 0) ∧
    ((if (s.live now).contains key then 1 else 0) = (if s.contains key then 1 else 0) ↔
      Fresh now key s) := by
  simp only [ExtTreeMap.contains_eq_isSome_getElem?, getElem?_live, Fresh]
  cases s[key]? with
  | none => simp
  | some e => cases hexp : e.isExpired now <;> simp [Option.filter, hexp]

/-- A key is fresh once it is erased. -/
theorem fresh_erase {k : String} : Fresh now k (s.erase key) ↔ key = k ∨ Fresh now k s := by
  unfold Fresh
  rw [FinMap.getElem?_erase]
  split <;> simp_all

/-- `del` counts the expired keys. -/
theorem del_live : ∀ (ks : List String) {s : Store},
    (del ks (s.live now)).1 ≤ (del ks s).1 ∧
      ((del ks (s.live now)).1 = (del ks s).1 ↔ ∀ k ∈ ks, Fresh now k s) ∧
      (del ks (s.live now)).2 = (del ks s).2.live now
  | [], _ => by simp [del]
  | k :: ks, s => by
    obtain ⟨hle, heq, hstore⟩ := del_live ks (s := s.erase k)
    rw [live_erase] at hle heq hstore
    obtain ⟨hle', heq'⟩ : _ ∧ (_ ↔ Fresh now k s) := contains_live
    simp only [del, List.forall_mem_cons]
    refine ⟨by omega, ⟨fun h => ?_, fun h => ?_⟩, hstore⟩
    · have hk := heq'.mp (by omega)
      refine ⟨hk, fun k' hk' => ?_⟩
      rcases fresh_erase.mp (heq.mp (by omega) k' hk') with rfl | hfresh
      · exact hk
      · exact hfresh
    · have hk := heq'.mpr h.1
      have hr := heq.mpr fun k' hk' => fresh_erase.mpr (Or.inr (h.2 k' hk'))
      omega

/-- `PERSIST` sees an expired entry. -/
theorem persist_live : (persist key (s.live now)).1 = (persist key s).1 ∧
      (persist key (s.live now)).2.live now = (persist key s).2.live now ↔ Fresh now key s := by
  unfold persist
  cases hs : s[key]? with
  | none => simp [getElem?_live_of_none hs, Fresh, hs, live_live]
  | some e =>
    cases hexp : e.isExpired now with
    | false =>
      refine iff_of_true ?_ fun e' he' => ?_
      rotate_left
      · rw [hs, Option.some.injEq] at he'
        rw [← he', hexp]
      simp only [getElem?_live_of_live hs hexp]
      split
      · rw [live_insert_live rfl, live_insert_live rfl, live_live]
        exact ⟨rfl, rfl⟩
      · exact ⟨rfl, live_live⟩
    | true =>
      have hsome : e.expiresAt.isSome = true := by
        cases he : e.expiresAt with
        | none => simp [Entry.isExpired, he] at hexp
        | some t => rfl
      simp [getElem?_live_of_expired hs hexp, Fresh, hs, hexp, hsome]

/-- `DBSIZE` counts the expired entries. -/
theorem keysCount_live : (s.live now).keysCount = s.keysCount ↔ ∀ k, Fresh now k s := by
  rw [keysCount, keysCount, live, ExtTreeMap.size_filter_eq_size_iff]
  constructor
  · intro h k e he
    have hk : k ∈ s := ExtTreeMap.mem_iff_isSome_getElem?.mpr (by simp [he])
    have hval := ExtTreeMap.getElem?_eq_some_getElem hk
    rw [he, Option.some.injEq] at hval
    simpa [hval] using h k hk
  · intro h k hk
    simpa using h k _ (ExtTreeMap.getElem?_eq_some_getElem hk)

/-- `MGET` does not see the expired entries. -/
theorem mgetLoop_live : ∀ (ks : List (Option String)) {s : Store}, mgetLoop now ks (s.live now) =
    ((mgetLoop now ks s).1, (mgetLoop now ks s).2.live now)
  | [], _ => rfl
  | none :: ks, _ => by simp only [mgetLoop, mgetLoop_live ks]
  | some k :: ks, _ => by simp only [mgetLoop, get_live, mgetLoop_live ks]

/-- `MSET` does not see the expired entries. -/
theorem msetLoop_live (pairs : List (String × Bytes)) (s : Store) :
    msetLoop now pairs (s.live now) = (msetLoop now pairs s).live now := by
  unfold msetLoop
  induction pairs generalizing s with
  | nil => rfl
  | cons p pairs ih => rw [List.foldl_cons, List.foldl_cons, set_live, ih]

end Store

end LoonyRedis
