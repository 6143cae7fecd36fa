import LoonyRedis.Aof
import LoonyRedis.FullSync

/-!
# Values on the way

A value leaves a node as a command that recreates it : `snapshot_entry_to_resp` writes one for
a full-sync and `build_value_frame` for a migration. The receiver parses the bytes and executes
each command as a replay (`replicate`).

For a store without expiries, empty collections and scores that are not numbers, both writers
produce commands that give an empty store the same contents, in whatever order they arrive
(`transfer_preserves_contents`) : the commands are of different keys, so each is executed on a
missing key, and nothing in their arguments is read as an option or a flag.
-/

namespace LoonyRedis

open Std Store Parser

section Receiving

variable (ctx : CommandContext) (elsewhere : Route → Store → Outcome) (envAt : ℕ → Env)

/-- The loop of `replicate_from_leader` over its buffer : the store, and what is left of the
buffer. The command with number `i` is executed in the surroundings `envAt i`. -/
def replicateLoop : ℕ → ℕ → Bytes → Store → Store × Bytes
  | 0, _, buf, s => (s, buf)
  | fuel + 1, i, buf, s =>
    match parseFrame buf with
    | .ok (some (frame, consumed)) =>
      replicateLoop fuel (i + 1) (buf.drop consumed) (execute ctx elsewhere (envAt i) frame s).store
    | .ok none => (s, buf)
    -- The buffer is cleared.
    | .error _ => (s, [])

/-- Execute every command of a buffer; each takes a byte of it. -/
def replicate (buf : Bytes) (s : Store) : Store × Bytes :=
  replicateLoop ctx elsewhere envAt (buf.length + 1) 0 buf s

variable {ctx elsewhere envAt}

theorem replicateLoop_eq {b : Bytes} {fs : List Frame} : ∀ {fuel i : ℕ} {s : Store},
    b.length < fuel → drain wireValue b = (fs, .incomplete []) →
    replicateLoop ctx elsewhere envAt fuel i b s = (applyLog ctx elsewhere envAt i fs s, []) := by
  induction b using drain_induction consumes_wireValue generalizing fs with
  | ok b f r hok ih =>
    rintro (_ | fuel) i s hlt hdrain
    · omega
    obtain ⟨c, rfl, hc⟩ := consumes_wireValue _ _ _ hok
    have hparse : parseFrame (c ++ r) = .ok (some (f, c.length)) :=
      parseFrame_eq_some_iff.mpr ⟨c, r, rfl, rfl, hok⟩
    rw [drain_ok consumes_wireValue hok] at hdrain
    obtain ⟨rfl, hrest⟩ := Prod.mk.inj hdrain
    rw [List.length_append] at hlt
    simp only [replicateLoop, hparse, List.drop_left, applyLog]
    exact ih (by omega) (Prod.ext rfl hrest)
  | stop b e herr =>
    rintro (_ | fuel) i s hlt hdrain
    · omega
    cases e with
    | incomplete =>
      rw [drain_incomplete herr] at hdrain
      obtain ⟨rfl, hnil⟩ := Prod.mk.inj hdrain
      obtain rfl := Rest.incomplete.inj hnil
      simp only [replicateLoop, parseFrame, herr, applyLog]
    | invalid e =>
      rw [drain_invalid herr] at hdrain
      cases hdrain
    | tooDeep => exact absurd herr (wireValue_ne_tooDeep b)

/-- Commands that were serialized one after the other are executed one after the other. -/
theorem replicate_serialized {fs : List Frame} (hfit : ∀ f ∈ fs, f.Fits)
    (hline : ∀ f ∈ fs, f.OneLine) (s : Store) :
    replicate ctx elsewhere envAt (fs.flatMap serializeFrame) s =
      (applyLog ctx elsewhere envAt 0 fs s, []) := by
  have hbytes : ∀ fs : List Frame, fs.flatMap serializeFrame = writeFrames fs := by
    intro fs
    induction fs with
    | nil => rfl
    | cons f fs ih => rw [List.flatMap_cons, ih, serializeFrame, writeFrames]
  have hdrain := drain_writeFrames (allFit_iff.mpr hfit) (allOneLine_iff.mpr hline) []
  have hnil : drain wireValue [] = ([], .incomplete []) := drain_incomplete rfl
  rw [List.append_nil, hnil, List.append_nil] at hdrain
  rw [hbytes]
  exact replicateLoop_eq (Nat.lt_succ_self _) hdrain

end Receiving

/-! ## Sending -/

/-- The parts of the command that recreates an entry. -/
def Store.SnapshotEntry.parts (e : SnapshotEntry) : Record :=
  Utf8.toBytes e.name :: Utf8.toBytes e.key ::
    match e with
    | .string _ value => [value]
    | .list _ items => items
    | .hash _ fields => fields.flatMap fun p => [p.1, p.2]
    | .set _ members => members
    | .zset _ members => members.flatMap fun p => [Utf8.toBytes p.2.display, p.1]

theorem snapshotEntryToResp_eq_bulks (e : SnapshotEntry) :
    snapshotEntryToResp e = .bulks e.parts := by
  cases e <;> simp [snapshotEntryToResp, Frame.bulks, SnapshotEntry.parts, SnapshotEntry.name,
    SnapshotEntry.key, bulkArgs, fieldArgs, scoredArgs, Frame.bulkStr, List.map_flatMap]

theorem snapshotEntry_eq_none {env : Env} {k : String} {v : Value} :
    snapshotEntry env k v = none ↔ v.isEmpty = true := by
  cases v <;> simp [snapshotEntry, Value.isEmpty]

variable {ctx : CommandContext} {s : Store}

/-- The command for an empty collection is refused. -/
theorem readCommand_of_isEmpty (ctx : CommandContext) {v : Value} (hv : v.isEmpty = true)
    (env : Env) (k : String) (pttl : ℤ) : ∃ name f,
      name ∈ ["SET", "RPUSH", "HSET", "SADD", "ZADD"] ∧
      buildValueFrame env k v pttl = .array (some [.bulkStr name, .bulkStr k]) ∧
      readCommand ctx name [.bulkStr name, .bulkStr k] = .error f := by
  cases v with
  | string b => cases hv
  | list l =>
    have hnil : l.toVec = [] := by
      simpa [Value.isEmpty, RedisList.isEmpty, RedisList.len_eq_zero] using hv
    exact ⟨"RPUSH", wrongNumArgs "rpush", by simp, by simp [buildValueFrame, hnil, bulkArgs], rfl⟩
  | hash h =>
    have hnil : h.allPairs env = [] := by
      simpa [Value.isEmpty, RedisHash.isEmpty, RedisHash.allPairs_eq_nil] using hv
    exact ⟨"HSET", wrongNumArgs "hset", by simp, by simp [buildValueFrame, hnil, fieldArgs], rfl⟩
  | set t =>
    have hnil : t.members env = [] := by
      simpa [Value.isEmpty, RedisSet.isEmpty, RedisSet.members_eq_nil] using hv
    exact ⟨"SADD", wrongNumArgs "sadd", by simp, by simp [buildValueFrame, hnil, bulkArgs], rfl⟩
  | zset z =>
    have hscores : z.scores = ∅ := by simpa [Value.isEmpty, ZSet.isEmpty] using hv
    have hnil : z.allWithScores = [] := by
      rw [← List.length_eq_zero_iff, ZSet.length_allWithScores, ZSet.len, hscores]
      rfl
    exact ⟨"ZADD", wrongNumArgs "zadd", by simp, by simp [buildValueFrame, hnil, scoredArgs], rfl⟩

/-- What a migrated value makes of the old value of its key. -/
theorem execute_value {k : String} (hserves : ctx.ServesKey k) (v : Value)
    (elsewhere : Route → Store → Outcome) (env env' : Env) (r : Store) :
    (execute ctx elsewhere env' (buildValueFrame env k v (-1)) r).store =
      match snapshotEntry env k v with
      | none => r
      | some x => r.insert k ⟨x.valueOver (r[k]?.map Entry.value), x.expiryOver r[k]?⟩ := by
  cases hx : snapshotEntry env k v with
  | none =>
    obtain ⟨name, f, hname, hframe, hread⟩ :=
      readCommand_of_isEmpty ctx (snapshotEntry_eq_none.mp hx) env k (-1)
    simp only [execute, hframe, Deployment.route_of_servesKey hserves hname, dispatch, hread]
  | some x =>
    have hempty : v.isEmpty = false := by
      rw [Bool.eq_false_iff, Ne, ← @snapshotEntry_eq_none env k, hx]
      simp
    obtain ⟨x', hx', hresp⟩ := @buildValueFrame_eq env k v hempty
    obtain rfl : x' = x := Option.some.inj (hx'.symm.trans hx)
    obtain rfl := SnapshotEntry.key_of_snapshotEntry hx
    rw [hresp, Deployment.execute_entry hserves (SnapshotEntry.elements_ne_nil hx)]

theorem replicate_entries (hreplay : ctx.isReplicaReplay = true)
    (elsewhere : Route → Store → Outcome) (envAt : ℕ → Env) (hexp : s.NoExpiry) (hval : s.Sendable)
    {l : List SnapshotEntry} (hl : s.SentBy l) (hfit : ∀ e ∈ l, (snapshotEntryToResp e).Fits) :
    ∃ t, replicate ctx elsewhere envAt (l.flatMap fun e => serializeFrame (snapshotEntryToResp e)) ∅
      = (t, []) ∧ t.Same s := by
  refine ⟨applyLog ctx elsewhere envAt 0 (l.map snapshotEntryToResp) ∅, ?_,
    Deployment.applyLog_entries_same hreplay hexp hval hl⟩
  rw [← List.flatMap_map]
  refine replicate_serialized (fun f hf => ?_) (fun f hf => ?_) ∅
  · obtain ⟨e, he, rfl⟩ := List.mem_map.mp hf
    exact hfit e he
  · obtain ⟨e, -, rfl⟩ := List.mem_map.mp hf
    rw [snapshotEntryToResp_eq_bulks]
    exact oneLine_record e.parts

theorem Store.SentBy.perm {l l' : List SnapshotEntry} (h : s.SentBy l) (hperm : l'.Perm l) :
    s.SentBy l' where
  keys := (hperm.map _).trans h.keys
  entry x hx := h.entry x (hperm.mem_iff.mp hx)

/-- The commands of `build_value_frame` for the keys of a list, written in the surroundings
`envFor k` for the key `k`. -/
def valueFrames (envFor : String → Env) (s : Store) (ks : List String) : List Frame :=
  ks.filterMap fun k => s[k]?.map fun e => buildValueFrame (envFor k) k e.value (-1)

/-- Without an expiry, these are commands of a snapshot. -/
theorem valueFrames_eq (hval : s.NoEmpty) (envFor : String → Env) :
    ∀ {ks : List String}, (∀ k ∈ ks, k ∈ s) → ∃ l : List SnapshotEntry,
      valueFrames envFor s ks = l.map snapshotEntryToResp ∧ l.map SnapshotEntry.key = ks ∧
      ∀ x ∈ l, ∃ env e, s[x.key]? = some e ∧ snapshotEntry env x.key e.value = some x
  | [], _ => ⟨[], rfl, rfl, by simp⟩
  | k :: ks, hmem => by
    rw [List.forall_mem_cons] at hmem
    obtain ⟨e, he⟩ := Option.isSome_iff_exists.mp (ExtTreeMap.mem_iff_isSome_getElem?.mp hmem.1)
    obtain ⟨x, hx, hframe⟩ := @buildValueFrame_eq (envFor k) k e.value (hval k e he)
    obtain ⟨l, hframes, hkeys, hl⟩ := valueFrames_eq hval envFor hmem.2
    obtain rfl := SnapshotEntry.key_of_snapshotEntry hx
    refine ⟨x :: l, ?_, by rw [List.map_cons, hkeys], List.forall_mem_cons.mpr ⟨?_, hl⟩⟩
    · rw [valueFrames] at hframes ⊢
      simp [he, hframe, hframes]
    · exact ⟨_, e, he, hx⟩

/-- Every value arrives : an empty store that replays what a snapshot of another one writes, or
what a migration writes for each of its keys, in any order, has its keys, types and contents. -/
theorem transfer_preserves_contents (hreplay : ctx.isReplicaReplay = true)
    (elsewhere : Route → Store → Outcome) (envAt : ℕ → Env) (hexp : s.NoExpiry)
    (hval : s.Sendable) :
    (∀ (env : Env) (l : List SnapshotEntry), l.Perm (s.snapshot env) →
      (∀ e ∈ l, (snapshotEntryToResp e).Fits) →
      ∃ t, replicate ctx elsewhere envAt
          (l.flatMap fun e => serializeFrame (snapshotEntryToResp e)) ∅ = (t, []) ∧ t.Same s) ∧
    (∀ (envFor : String → Env) (ks : List String), ks.Perm s.keys →
      (∀ f ∈ valueFrames envFor s ks, f.Fits) →
      ∃ t, replicate ctx elsewhere envAt ((valueFrames envFor s ks).flatMap serializeFrame) ∅ =
        (t, []) ∧ t.Same s) := by
  refine ⟨fun env l hperm hfit => ?_, fun envFor ks hperm hfit => ?_⟩
  · exact replicate_entries hreplay elsewhere envAt hexp hval
      ((Deployment.sentBy_snapshot hexp hval.noEmpty env).perm hperm) hfit
  · obtain ⟨l, hframes, hkeys, hl⟩ := @valueFrames_eq s hval.noEmpty envFor ks
      (fun k hk => ExtTreeMap.mem_keys.mp (hperm.mem_iff.mp hk))
    have hsent : s.SentBy l := ⟨hkeys ▸ hperm, hl⟩
    rw [hframes] at hfit ⊢
    rw [List.flatMap_map]
    exact replicate_entries hreplay elsewhere envAt hexp hval hsent
      fun e he => hfit _ (List.mem_map_of_mem he)

section Example

/-- A string, and a sorted set with a member that looks like a flag. -/
def twoKeys : Store :=
  ((∅ : Store).insert "k" ⟨.string (Utf8.toBytes "v"), none⟩).insert "z"
    ⟨.zset (ZSet.new.put (Utf8.toBytes "NX") .one), none⟩

theorem getElem?_twoKeys {k : String} {e : Entry} (h : twoKeys[k]? = some e) :
    e = ⟨.string (Utf8.toBytes "v"), none⟩ ∨
      e = ⟨.zset (ZSet.new.put (Utf8.toBytes "NX") .one), none⟩ := by
  simp only [twoKeys, FinMap.getElem?_insert] at h
  split at h
  · exact .inr (Option.some.inj h).symm
  · split at h
    · exact .inl (Option.some.inj h).symm
    · simp at h

theorem noExpiry_twoKeys : twoKeys.NoExpiry := by
  intro k e he
  rcases getElem?_twoKeys he with rfl | rfl <;> rfl

theorem sendable_twoKeys : twoKeys.Sendable := by
  intro k e he
  rcases getElem?_twoKeys he with rfl | rfl
  · exact ⟨rfl, id⟩
  · refine ⟨by decide, fun ⟨m, x, hx, hnan⟩ => ?_⟩
    rw [ZSet.scores_put] at hx
    split at hx
    · rw [← Option.some.inj hx] at hnan
      exact absurd hnan (by decide)
    · simp [ZSet.new] at hx

theorem fits_of_short {r : Record} (hlen : r.length ≤ 8) (hparts : ∀ p ∈ r, p.length ≤ 8) :
    (Frame.bulks r).Fits := by
  rw [Frame.bulks, Frame.Fits, allFit_iff, List.length_map, Text.i64Max]
  refine ⟨by omega, fun f hf => ?_⟩
  obtain ⟨p, hp, rfl⟩ := List.mem_map.mp hf
  have hp := hparts p hp
  rw [Frame.Fits, Text.i64Max]
  omega

theorem twoKeys_transferred : ∃ t, replicate smallDeployment.replica Deployment.nowhere
    (fun _ => .plain 0) ((twoKeys.snapshot (.plain 0)).reverse.flatMap fun e =>
      serializeFrame (snapshotEntryToResp e)) ∅ = (t, []) ∧ t.Same twoKeys := by
  refine (transfer_preserves_contents smallDeployment.replica_replay Deployment.nowhere
    (fun _ => .plain 0) noExpiry_twoKeys sendable_twoKeys).1 (.plain 0) _
    (List.reverse_perm _) fun e he => ?_
  have hshort : ∀ e ∈ twoKeys.snapshot (.plain 0),
      e.parts.length ≤ 8 ∧ ∀ p ∈ e.parts, p.length ≤ 8 := by
    decide +kernel
  rw [List.mem_reverse] at he
  rw [snapshotEntryToResp_eq_bulks]
  exact fits_of_short (hshort e he).1 (hshort e he).2

end Example

end LoonyRedis
