import LoonyRedis.KeyAccess
import LoonyRedis.Membership
import LoonyRedis.Transfer

/-!
# Expiries on the way

The entries of a snapshot have no expiry, so a replica gets every key of a full-sync without
one. A migration reads the remaining time in whole milliseconds (`pttl`) and sends it with a
string, as `PX`; the commands for the other types have no place for it. A remainder below a
millisecond is sent as if there was none.

A key that the other side did not hold before gets an expiry only if it is a string that is
migrated with at least a millisecond to go (`expiry_survives_iff`), and this expiry is not later
than the one of the original and the delay of the transfer together.
-/

namespace LoonyRedis

open Std Store

/-- The entry expires, and not after `limit`. -/
def Entry.DueBy (e : Entry) (limit : ℕ) : Prop := ∃ t, e.expiresAt = some t ∧ t ≤ limit

/-- What the store holds at the key, if anything, expires and not after `limit`. -/
def Store.DueBy (s : Store) (k : String) (limit : ℕ) : Prop := ∀ e, s[k]? = some e → e.DueBy limit

/-! ## Draining -/

/-- What `drain_slots` takes of a key. -/
def Store.migrateEntry (now : ℕ) (s : Store) (k : String) : Option MigrateEntry :=
  (s.get now k).1.bind fun v => if s.pttl now k = -2 then none else some (k, v, s.pttl now k)

theorem Store.migrateEntry_congr {now : ℕ} {s t : Store} {k : String} (h : s[k]? = t[k]?) :
    s.migrateEntry now k = t.migrateEntry now k := by
  have hget : (s.get now k).1 = (t.get now k).1 := by
    unfold Store.get
    rw [h]
    cases t[k]? with
    | none => rfl
    | some e =>
      simp only
      split <;> rfl
  rw [migrateEntry, migrateEntry, hget, pttl_congr h]

theorem Store.key_of_migrateEntry {now : ℕ} {s : Store} (k : String) (m : MigrateEntry)
    (h : s.migrateEntry now k = some m) : m.1 = k := by
  obtain ⟨v, -, hm⟩ := Option.bind_eq_some_iff.mp h
  split at hm
  · cases hm
  · rw [← Option.some.inj hm]

/-- Every key is taken as it was at the start. -/
theorem drainLoop_fst (now : ℕ) : ∀ {ks : List String} {s : Store}, ks.Nodup →
    (drainLoop now ks s).1 = ks.filterMap (s.migrateEntry now)
  | [], _, _ => rfl
  | k :: ks, s, hnd => by
    rw [List.nodup_cons] at hnd
    -- A step changes nothing at the other keys.
    have hrest {t : Store} (ht : ∀ k', k' ≠ k → t[k']? = s[k']?) :
        (drainLoop now ks t).1 = ks.filterMap (s.migrateEntry now) := by
      rw [drainLoop_fst now hnd.2]
      refine List.filterMap_congr fun k' hk' => migrateEntry_congr (ht k' ?_)
      exact fun heq => hnd.1 (heq ▸ hk')
    have herase (k' : String) (hne : k' ≠ k) : (s.erase k)[k']? = s[k']? := by
      rw [FinMap.getElem?_erase, if_neg (Ne.symm hne)]
    rw [List.filterMap_cons, drainLoop]
    cases hkey : s[k]? with
    | none =>
      have hget : s.get now k = (none, s) := by simp [Store.get, hkey]
      rw [hget, migrateEntry, hget]
      exact hrest fun _ _ => rfl
    | some e =>
      by_cases hexp : e.isExpired now = true
      · have hget : s.get now k = (none, s.erase k) := by simp [Store.get, hkey, hexp]
        rw [hget, migrateEntry, hget]
        exact hrest herase
      · have hget : s.get now k = (some e.value, s) := by simp [Store.get, hkey, hexp]
        rw [hget, migrateEntry, hget]
        by_cases hpttl : s.pttl now k = -2
        · simp only [hpttl, if_true, Option.bind_some]
          exact hrest fun _ _ => rfl
        · simp only [hpttl, if_false, Option.bind_some]
          rw [hrest (t := (s.del [k]).2) herase]

/-! ## Executing the command for a key -/

/-- The expiry at a key that held `old`, after the command for `v` was executed at `now`. -/
def expiryAfter (now : ℕ) (v : Value) (pttl : ℤ) (old : Option Entry) : Option (Option ℕ) :=
  match v with
  | .string _ => some (if 0 < pttl then some (now + pttl.toNat * nanosPerMilli) else none)
  | v => if v.isEmpty then old.map Entry.expiresAt else some (old.bind Entry.expiresAt)

section Executing

variable {ctx : CommandContext} {k : String}

theorem setOption_px {n : Text.I64} (hpos : 0 < n.1) :
    ([.bulkStr "PX", .bulkStr (toString n.1)] : List Frame).foldl setOption {} =
      { ttl := some (n.1.toNat * nanosPerMilli) } := by
  have hread : bulkAsI64 [.bulkStr (toString n.1)] 0 = some n := by
    have htrim := Text.trim_of_no_whitespace (Text.isWhitespace_of_mem_toString n.1)
    simp [bulkAsI64, bulkBytes, Frame.bulkStr, Frame.payload, Utf8.lossy_toBytes,
      -Int.toString_eq_repr, htrim, Text.parseI64_toString]
  simp only [List.foldl_cons, List.foldl_nil]
  have hunit : setOption {} (.bulkStr "PX") = { unit := some nanosPerMilli } := by
    simp only [setOption, SnapshotEntry.bulkAsStr_bulkStr]
  rw [hunit]
  simp only [setOption, hread, Option.filter_some, decide_eq_true hpos, if_true, Option.map_some]

theorem readCommand_setPx (ctx : CommandContext) (k : String) (b : Bytes) {pttl : ℤ}
    (hfit : pttl ≤ Text.i64Max) :
    readCommand ctx "SET" ([.bulkStr "SET", .bulkStr k, .bulk (some b)] ++
        if 0 < pttl then [.bulkStr "PX", .bulkStr (toString pttl)] else []) =
      .ok (.set k b (if 0 < pttl then some (pttl.toNat * nanosPerMilli) else none) false false) := by
  have htable : (commandTable ctx).lookup "SET" = some cmdSet := rfl
  by_cases hpos : 0 < pttl
  · have hmin : Text.i64Min ≤ pttl := by
      rw [Text.i64Min]
      omega
    have hopts := setOption_px (n := ⟨pttl, hmin, hfit⟩) hpos
    simp only [readCommand, htable, if_pos hpos, cmdSet, List.cons_append, List.nil_append,
      List.drop_succ_cons, List.drop_zero, hopts, SnapshotEntry.strArg_key]
    rfl
  · simp only [readCommand, htable, if_neg hpos, cmdSet, List.append_nil,
      SnapshotEntry.strArg_key]
    rfl

/-- Without a remaining time, a migration leaves the expiry that a snapshot leaves. -/
theorem expiryAfter_of_snapshotEntry {env : Env} {v : Value} {x : SnapshotEntry}
    (h : snapshotEntry env k v = some x) (now : ℕ) (old : Option Entry) :
    expiryAfter now v (-1) old = some (x.expiryOver old) := by
  cases v with
  | string b =>
    obtain rfl : _ = x := by simpa [snapshotEntry] using h
    rfl
  | list c | hash c | set c | zset c =>
    obtain ⟨hempty, rfl⟩ : ¬ c.isEmpty = true ∧ _ = x := by simpa [snapshotEntry] using h
    simp [expiryAfter, Value.isEmpty, hempty, SnapshotEntry.expiryOver]

theorem expiryAfter_of_isEmpty {v : Value} (h : v.isEmpty = true) (now : ℕ) (pttl : ℤ)
    (old : Option Entry) : expiryAfter now v pttl old = old.map Entry.expiresAt := by
  cases v with
  | string b => cases h
  | _ => simp only [expiryAfter, h, if_true]

/-- The command for a value changes no other key, and the expiry as `expiryAfter` says. -/
theorem execute_valueFrame (hserves : ctx.ServesKey k) (v : Value) {pttl : ℤ}
    (hfit : pttl ≤ Text.i64Max) (elsewhere : Route → Store → Outcome) (env env' : Env) (r : Store) :
    let after := (execute ctx elsewhere env' (buildValueFrame env k v pttl) r).store
    (∀ k', k' ≠ k → after[k']? = r[k']?) ∧
      after[k]?.map Entry.expiresAt = expiryAfter env'.now v pttl r[k]? := by
  intro after
  by_cases hstring : ∃ b, v = .string b
  · obtain ⟨b, rfl⟩ := hstring
    have hname : "SET" ∈ ["SET", "RPUSH", "HSET", "SADD", "ZADD"] := by simp
    have hroute := Deployment.route_of_servesKey hserves hname
      (.bulk (some b) :: if 0 < pttl then [.bulkStr "PX", .bulkStr (toString pttl)] else [])
    have hafter : after = r.insert k ⟨.string b,
        if 0 < pttl then some (env'.now + pttl.toNat * nanosPerMilli) else none⟩ := by
      have hread := readCommand_setPx ctx k b hfit
      simp only [List.cons_append, List.nil_append] at hread
      simp only [after, execute, buildValueFrame, List.cons_append, List.nil_append, hroute,
        dispatch, hread]
      simp only [Request.run, Store.set, Bool.false_and, Bool.false_eq_true, if_false]
      split <;> rfl
    refine ⟨fun k' hne => ?_, ?_⟩
    · rw [hafter, FinMap.getElem?_insert, if_neg (Ne.symm hne)]
    · rw [hafter, FinMap.getElem?_insert, if_pos rfl]
      rfl
  · have hexpiry : expiryAfter env'.now v pttl r[k]? = expiryAfter env'.now v (-1) r[k]? := by
      cases v <;> simp_all [expiryAfter]
    rw [hexpiry]
    have hframe : buildValueFrame env k v pttl = buildValueFrame env k v (-1) := by
      cases v <;> simp_all [buildValueFrame]
    simp only [after, hframe, execute_value hserves]
    cases hx : snapshotEntry env k v with
    | none =>
      rw [expiryAfter_of_isEmpty (snapshotEntry_eq_none.mp hx)]
      exact ⟨fun _ _ => rfl, rfl⟩
    | some x =>
      rw [expiryAfter_of_snapshotEntry hx]
      refine ⟨fun k' hne => ?_, ?_⟩
      · rw [FinMap.getElem?_insert, if_neg (Ne.symm hne)]
      · rw [FinMap.getElem?_insert, if_pos rfl]
        rfl

/-- The commands for different keys do not touch each other. -/
theorem applyLog_valueFrames {elsewhere : Route → Store → Outcome} {env : Env} {envAt : ℕ → Env} :
    ∀ {es : List MigrateEntry} {i : ℕ} {r : Store}, (es.map Prod.fst).Nodup →
      (∀ m ∈ es, ctx.ServesKey m.1 ∧ m.2.2 ≤ Text.i64Max) → ∀ k,
      let after := applyLog ctx elsewhere envAt i
        (es.map fun m => buildValueFrame env m.1 m.2.1 m.2.2) r
      match es.find? fun m => m.1 = k with
      | none => after[k]? = r[k]?
      | some m => ∃ j, after[k]?.map Entry.expiresAt =
          expiryAfter (envAt j).now m.2.1 m.2.2 r[k]?
  | [], _, _, _, _, _ => rfl
  | (k', v, pttl) :: es, i, r, hnd, hes, k => by
    rw [List.map_cons, List.nodup_cons] at hnd
    rw [List.forall_mem_cons] at hes
    obtain ⟨hother, hkey⟩ := execute_valueFrame hes.1.1 v hes.1.2 elsewhere env (envAt i) r
    have ih := @applyLog_valueFrames elsewhere env envAt es (i + 1)
      (execute ctx elsewhere (envAt i) (buildValueFrame env k' v pttl) r).store hnd.2 hes.2 k
    simp only [List.map_cons, applyLog, List.find?_cons]
    by_cases heq : k' = k
    · subst heq
      have hnone : (es.find? fun m => m.1 = k') = none := by
        rw [List.find?_eq_none]
        intro m hm hkey
        rw [decide_eq_true_eq] at hkey
        exact hnd.1 (List.mem_map.mpr ⟨m, hm, hkey⟩)
      simp only [hnone] at ih
      simp only [decide_true]
      exact ⟨i, by rw [ih, hkey]⟩
    · simp only [heq, decide_false]
      rw [hother k (Ne.symm heq)] at ih
      exact ih

end Executing

/-! ## Both ways -/

theorem dueBy_iff {s : Store} {k : String} {x : Option (Option ℕ)} {limit : ℕ}
    (h : s[k]?.map Entry.expiresAt = x) :
    s.DueBy k limit ↔ ∀ o, x = some o → ∃ t, o = some t ∧ t ≤ limit := by
  subst h
  cases hk : s[k]? <;> simp [Store.DueBy, Entry.DueBy, hk]

/-- When what a command leaves at a key of the store `r` expires in time. -/
theorem due_expiryAfter {now : ℕ} {v : Value} {pttl : ℤ} {r : Store} {k : String} {limit : ℕ} :
    (∀ o, expiryAfter now v pttl r[k]? = some o → ∃ t, o = some t ∧ t ≤ limit) ↔
      match v with
      | .string _ => 0 < pttl ∧ now + pttl.toNat * nanosPerMilli ≤ limit
      | v => (r[k]? = none → v.isEmpty = true) ∧ r.DueBy k limit := by
  cases v with
  | string b =>
    by_cases hpos : 0 < pttl <;> simp [expiryAfter, hpos]
  | list c | hash c | set c | zset c =>
    cases hk : r[k]? <;> cases hempty : c.isEmpty <;>
      simp [expiryAfter, Value.isEmpty, hempty, hk, Store.DueBy, Entry.DueBy]

section Ways

variable {s : Store} {k : String} {e : Entry} {t : ℕ} {env : Env}

theorem pttl_le (now : ℕ) (k : String) (s : Store) : s.pttl now k ≤ Text.i64Max := by
  unfold pttl
  have hneg : (-2 : ℤ) ≤ Text.i64Max ∧ (-1 : ℤ) ≤ Text.i64Max := by decide
  split
  · exact hneg.1
  · split
    · exact hneg.1
    · split
      · exact hneg.2
      · split
        · exact hneg.1
        · exact (Text.wrap _).2.2

/-- Whole milliseconds are rounded down. -/
theorem pttl_le_remaining {now : ℕ} (hk : s[k]? = some e) (ht : e.expiresAt = some t)
    (hpos : 0 < s.pttl now k) : now + (s.pttl now k).toNat * nanosPerMilli ≤ t := by
  unfold pttl at hpos ⊢
  simp only [hk, ht] at hpos ⊢
  split at hpos
  · cases hpos
  · next hlive =>
    rw [if_neg hlive]
    split at hpos
    · cases hpos
    · next hlater =>
      rw [if_neg hlater]
      -- A number that does not wrap to a negative one wraps to a smaller one, if at all.
      have hwrap (n : ℕ) : (Text.wrap n : ℤ) ≤ n := by
        simp only [Text.wrap, Int.bmod_def]
        omega
      have hle := hwrap ((t - now) / nanosPerMilli)
      have hround := Nat.div_mul_le_self (t - now) nanosPerMilli
      generalize (t - now) / nanosPerMilli = n at *
      have hnat : (Text.wrap n : ℤ).toNat ≤ n := by omega
      have hmul := Nat.mul_le_mul_right nanosPerMilli hnat
      omega

theorem mem_allKeys {k : String} :
    k ∈ s.allKeys env ↔ ∃ e, s[k]? = some e ∧ e.isExpired env.now = false := by
  rw [allKeys, (env.keyOrder_perm _).mem_iff, ExtTreeMap.mem_keys,
    ExtTreeMap.mem_iff_isSome_getElem?, getElem?_live]
  cases s[k]? <;> simp

theorem nodup_allKeys (s : Store) (env : Env) : (s.allKeys env).Nodup :=
  (env.keyOrder_perm _).nodup_iff.mpr ExtTreeMap.nodup_keys

variable (hk : s[k]? = some e) (hlive : e.isExpired env.now = false)
include hk hlive

/-- A full-sync treats every key as if it had no expiry. -/
theorem dueBy_snapshot_iff {ctx : CommandContext} (hreplay : ctx.isReplicaReplay = true)
    (elsewhere : Route → Store → Outcome) (envAt : ℕ → Env) (r : Store) (limit : ℕ) :
    (applyLog ctx elsewhere envAt 0 ((s.snapshot env).map snapshotEntryToResp) r).DueBy k limit ↔
      (∀ b, e.value ≠ .string b) ∧ (r[k]? = none → e.value.isEmpty = true) ∧ r.DueBy k limit := by
  have hmem : k ∈ s.allKeys env := mem_allKeys.mpr ⟨e, hk, hlive⟩
  have hne : ∀ x ∈ s.snapshot env, x.elements ≠ [] := fun x hx =>
    have ⟨_, _, _, hentry⟩ := Deployment.of_mem_entriesOf hx
    SnapshotEntry.elements_ne_nil hentry
  have hat := @Deployment.getElem?_applyLog_entries ctx hreplay elsewhere envAt (s.snapshot env) 0 r
    (FinMap.nodup_map_key_filterMap Deployment.key_of_entry (nodup_allKeys s env)) hne k
  have hfind : ((s.snapshot env).find? fun x => x.key = k) = snapshotEntry env k e.value := by
    refine (Deployment.find?_entriesOf s env k (s.allKeys env)).trans ?_
    rw [if_pos hmem, hk, Option.bind_some]
  rw [hfind] at hat
  have hafter : (applyLog ctx elsewhere envAt 0 ((s.snapshot env).map snapshotEntryToResp)
      r)[k]?.map Entry.expiresAt = expiryAfter 0 e.value (-1) r[k]? := by
    cases hx : snapshotEntry env k e.value with
    | none =>
      rw [hx] at hat
      exact (congrArg _ hat).trans (expiryAfter_of_isEmpty (snapshotEntry_eq_none.mp hx) ..).symm
    | some x =>
      rw [hx] at hat
      exact (congrArg _ hat).trans (expiryAfter_of_snapshotEntry hx ..).symm
  rw [dueBy_iff hafter, due_expiryAfter]
  cases e.value <;> simp

/-- A migration sends the remaining time of a string. -/
theorem dueBy_drainSlots_iff (ht : e.expiresAt = some t) {ctx : CommandContext} {slots : List ℕ}
    (hslot : slotForKey (Utf8.toBytes k) ∈ slots)
    (hserves : ∀ k', slotForKey (Utf8.toBytes k') ∈ slots → ctx.ServesKey k')
    (elsewhere : Route → Store → Outcome) {envAt : ℕ → Env} {delay : ℕ}
    (hdelay : ∀ i, (envAt i).now ≤ env.now + delay) (r : Store) :
    (applyLog ctx elsewhere envAt 0 ((drainSlots env slots s).1.map fun m =>
        buildValueFrame env m.1 m.2.1 m.2.2) r).DueBy k (t + delay) ↔
      if s.pttl env.now k = -2 then r.DueBy k (t + delay)
      else match e.value with
        | .string _ => 0 < s.pttl env.now k
        | v => (r[k]? = none → v.isEmpty = true) ∧ r.DueBy k (t + delay) := by
  -- The key is drained with what it holds, unless it is due at this moment.
  let ks := (s.allKeys env).filter fun k => slotForKey (Utf8.toBytes k) ∈ slots
  have hks : ks.Nodup := (nodup_allKeys s env).filter _
  have hdrain : (drainSlots env slots s).1 = ks.filterMap (s.migrateEntry env.now) :=
    drainLoop_fst env.now hks
  have hmem : k ∈ ks := List.mem_filter.mpr ⟨mem_allKeys.mpr ⟨e, hk, hlive⟩, by simpa using hslot⟩
  have hentry : s.migrateEntry env.now k =
      if s.pttl env.now k = -2 then none else some (k, e.value, s.pttl env.now k) := by
    simp [migrateEntry, Store.get, hk, hlive]
  have hall : ∀ m ∈ ks.filterMap (s.migrateEntry env.now),
      ctx.ServesKey m.1 ∧ m.2.2 ≤ Text.i64Max := by
    intro m hm
    obtain ⟨k', hk', hm⟩ := List.mem_filterMap.mp hm
    obtain rfl := key_of_migrateEntry k' m hm
    obtain ⟨v, -, hv⟩ := Option.bind_eq_some_iff.mp hm
    split at hv
    · cases hv
    · refine ⟨hserves _ (by simpa using (List.mem_filter.mp hk').2), ?_⟩
      rw [← Option.some.inj hv]
      exact pttl_le ..
  have hat := @applyLog_valueFrames ctx elsewhere env envAt _ 0 r
    (FinMap.nodup_map_key_filterMap key_of_migrateEntry hks) hall k
  rw [FinMap.find?_filterMap_key key_of_migrateEntry, if_pos hmem, hentry] at hat
  rw [hdrain]
  by_cases hskip : s.pttl env.now k = -2
  · rw [if_pos hskip] at hat ⊢
    simp only [Store.DueBy, hat]
  · rw [if_neg hskip] at hat ⊢
    obtain ⟨j, hat⟩ := hat
    rw [dueBy_iff hat, due_expiryAfter]
    cases hv : e.value with
    | string b =>
      refine and_iff_left_of_imp fun hpos => ?_
      have hremaining := pttl_le_remaining hk ht hpos
      have hj := hdelay j
      simp only
      omega
    | _ => rfl

end Ways

/-- When the expiry of a live key survives. The other side executes the commands within `delay`,
on a store `r`, and what it then holds at the key is to expire at most `delay` later than the
original does. -/
theorem expiry_survives_iff {s : Store} {k : String} {e : Entry} {t : ℕ} {env : Env}
    (hk : s[k]? = some e) (ht : e.expiresAt = some t) (hlive : e.isExpired env.now = false)
    (elsewhere : Route → Store → Outcome) {envAt : ℕ → Env} {delay : ℕ}
    (hdelay : ∀ i, (envAt i).now ≤ env.now + delay) (r : Store) :
    (∀ ctx : CommandContext, ctx.isReplicaReplay = true →
      ((applyLog ctx elsewhere envAt 0 ((s.snapshot env).map snapshotEntryToResp) r).DueBy k
          (t + delay) ↔
        (∀ b, e.value ≠ .string b) ∧ (r[k]? = none → e.value.isEmpty = true) ∧
          r.DueBy k (t + delay))) ∧
    (∀ (ctx : CommandContext) (slots : List ℕ), slotForKey (Utf8.toBytes k) ∈ slots →
      (∀ k', slotForKey (Utf8.toBytes k') ∈ slots → ctx.ServesKey k') →
      ((applyLog ctx elsewhere envAt 0 ((drainSlots env slots s).1.map fun m =>
          buildValueFrame env m.1 m.2.1 m.2.2) r).DueBy k (t + delay) ↔
        if s.pttl env.now k = -2 then r.DueBy k (t + delay)
        else match e.value with
          | .string _ => 0 < s.pttl env.now k
          | v => (r[k]? = none → v.isEmpty = true) ∧ r.DueBy k (t + delay))) :=
  ⟨fun _ hreplay => dueBy_snapshot_iff hk hlive hreplay elsewhere envAt r (t + delay),
    fun _ _ hslot hserves => dueBy_drainSlots_iff hk hlive ht hslot hserves elsewhere hdelay r⟩

section Failing

/-- A list and a string that expire after an hour. -/
def anHour : ℕ := 3600 * nanosPerSec

/-- A store with a list that expires. -/
def agingList : Store :=
  (∅ : Store).insert "l" ⟨.list (.small [Utf8.toBytes "a"]), some anHour⟩

/-- A store with a string that expires. -/
def agingString : Store :=
  (∅ : Store).insert "k" ⟨.string (Utf8.toBytes "v"), some anHour⟩

/-- The slot of a key, drained at time zero and executed there on an empty store. -/
def migrated (s : Store) (key : String) : Store :=
  applyLog .standalone Deployment.nowhere (fun _ => .plain 0) 0
    ((drainSlots (.plain 0) [slotForKey (Utf8.toBytes key)] s).1.map fun m =>
      buildValueFrame (.plain 0) m.1 m.2.1 m.2.2) ∅

/-- What an empty replica holds after the full sync of a store. -/
def fullSynced (s : Store) : Store :=
  applyLog smallDeployment.replica Deployment.nowhere (fun _ => .plain 0) 0
    ((s.snapshot (.plain 0)).map snapshotEntryToResp) ∅

theorem not_dueBy {s : Store} {k : String} (h : s[k]?.map Entry.expiresAt = some none)
    (limit : ℕ) : ¬ s.DueBy k limit := by
  rw [dueBy_iff h]
  simp

/-- The list arrives without expiry on both ways, and so does the string in a full-sync. -/
theorem expiry_lost_on_the_way :
    ¬ (migrated agingList "l").DueBy "l" anHour ∧ ¬ (fullSynced agingList).DueBy "l" anHour ∧
      ¬ (fullSynced agingString).DueBy "k" anHour :=
  ⟨not_dueBy (by decide +kernel) _, not_dueBy (by decide +kernel) _,
    not_dueBy (by decide +kernel) _⟩

theorem servesKey_standalone (k : String) : CommandContext.standalone.ServesKey k :=
  .inr ⟨rfl, rfl, fun _ h => nomatch h⟩

/-- The string is migrated with its expiry. -/
theorem expiry_migrated : (migrated agingString "k").DueBy "k" (anHour + 0) := by
  have hk : agingString["k"]? = some ⟨.string (Utf8.toBytes "v"), some anHour⟩ :=
    FinMap.getElem?_insert_self
  have hsurvives := @expiry_survives_iff agingString "k" _ anHour (.plain 0) hk rfl (by decide)
    Deployment.nowhere (fun _ => .plain 0) 0 (fun _ => Nat.le_refl _) ∅
  refine (hsurvives.2 .standalone _ (List.mem_singleton.mpr rfl)
    fun _ _ => servesKey_standalone _).mpr ?_
  have hpttl : agingString.pttl (Env.plain 0).now "k" = 3600000 := by decide
  rw [hpttl, if_neg (by decide)]
  decide

end Failing

end LoonyRedis
