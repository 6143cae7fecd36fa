import LoonyRedis.FullSync

/-!
# Full-sync on a store that is not empty

A replica that reconnects, or that has replayed its append-only file, executes the snapshot
of the leader on what it holds already : nothing is removed first. What the commands of a
snapshot make of an old value depends on its type. `SET` replaces it, `RPUSH` adds to it, and
`HSET`, `SADD` and `ZADD` leave the other fields and members where they are; all but `SET`
fail on a value of another type, and keep the expiry of the key. Keys that the leader does not
have stay.

`Value.TakesOver` says when sending a value gives the key its contents, and
`resync_converges_iff` that a replica converges exactly if this is so for every key.
-/

namespace LoonyRedis

open Std Store

/-- The key ends up with what the leader has there : it is not a live key of the replica if
the leader does not have it, and else the value of the leader takes over the old one, which
must not be expired unless it is replaced by `SET`. -/
def Store.Resyncs (now : ℕ) (s r : Store) (k : String) : Prop :=
  match s[k]? with
  | none => (r.live now)[k]? = none
  | some e => e.value.TakesOver (r[k]?.map Entry.value) ∧
      ((∃ b, e.value = .string b) ∨ ∀ old, r[k]? = some old → old.isExpired now = false)

theorem Store.SnapshotEntry.isExpired_expiryOver {env : Env} {k : String} {v : Value}
    {x : SnapshotEntry} (h : snapshotEntry env k v = some x) (w : Value) {old : Option Entry}
    {now : ℕ} : Entry.isExpired now ⟨w, x.expiryOver old⟩ = false ↔
      (∃ b, v = .string b) ∨ ∀ o, old = some o → o.isExpired now = false := by
  have hkeep : Entry.isExpired now ⟨w, old.bind Entry.expiresAt⟩ = false ↔
      ∀ o, old = some o → o.isExpired now = false := by
    cases old <;> simp [Entry.isExpired]
  cases v with
  | string b =>
    obtain rfl : _ = x := by simpa [snapshotEntry] using h
    simp [expiryOver, Entry.isExpired]
  | list c | hash c | set c | zset c =>
    obtain ⟨-, rfl⟩ : ¬ c.isEmpty = true ∧ _ = x := by simpa [snapshotEntry] using h
    simpa [expiryOver] using hkeep

/-- A replica that executes the snapshot of a leader with neither expiries nor empty
collections shows the keys and the contents of the leader, exactly if each key of the leader
is taken over, and each live key of the replica is one of the leader. -/
theorem resync_converges_iff (d : Deployment) {s : Store} (hexp : s.NoExpiry)
    (hval : s.NoEmpty) (r : Store) (env env' : Env) (now : ℕ) :
    ((d.replay env' ((s.snapshot env).map snapshotEntryToResp) r).live now).contents =
      s.contents ↔ ∀ k, s.Resyncs now r k := by
  rw [funext_iff]
  refine forall_congr' fun k => ?_
  rw [Store.contents, Store.contents, getElem?_live,
    Deployment.getElem?_replay_snapshot d hexp hval]
  unfold Store.Resyncs
  cases hk : s[k]? with
  | none =>
    simp only [Option.map_none, Option.map_eq_none_iff]
    rw [getElem?_live]
  | some e =>
    obtain ⟨x, hx, -⟩ := @buildValueFrame_eq env k e.value (hval k e hk)
    simp only [hx, Option.map_some]
    rw [← SnapshotEntry.content_valueOver_eq_iff hx, ←
      SnapshotEntry.isExpired_expiryOver hx (x.valueOver (r[k]?.map Entry.value)), Option.filter_some]
    split
    · next hlive =>
      rw [Bool.not_eq_true'] at hlive
      simp [hlive]
    · next hlive =>
      rw [Bool.not_eq_true', Bool.not_eq_false] at hlive
      simp [hlive]

section Failing

/-- A list with one element. -/
def oneList : Store := (∅ : Store).insert "l" ⟨.list (.small [Utf8.toBytes "a"]), none⟩

/-- A string. -/
def oneString : Store := (∅ : Store).insert "k" ⟨.string (Utf8.toBytes "v"), none⟩

/-- What a replica with the store `r` shows after a full-sync from a leader with the store
`s`. -/
def afterResync (s r : Store) : Store :=
  (smallDeployment.replay (.plain 0) ((s.snapshot (.plain 0)).map snapshotEntryToResp) r).live 0

theorem noExpiry_oneList : oneList.NoExpiry := (same_empty.insert "l" rfl).left
theorem noExpiry_oneString : oneString.NoExpiry := (same_empty.insert "k" rfl).left

theorem noEmpty_single {k : String} {v : Value} (hv : v.isEmpty = false) :
    NoEmpty ((∅ : Store).insert k ⟨v, none⟩) := by
  intro k' e he
  rw [FinMap.getElem?_insert] at he
  split at he
  · rw [← Option.some.inj he]
    exact hv
  · simp at he

/-- A replica that has the list already has its element twice, and a key that the leader does
not have stays. -/
theorem resync_keeps_old : oneList.NoExpiry ∧ oneList.NoEmpty ∧
    (afterResync oneList oneList).contents ≠ oneList.contents ∧
    (afterResync oneList oneString).contents ≠ oneList.contents := by
  refine ⟨noExpiry_oneList, noEmpty_single rfl, fun h => ?_, fun h => ?_⟩
  · have hlen := congrArg (fun c : String → Option Content => Content.lengthOf (c "l")) h
    exact absurd hlen (by decide +kernel)
  · have hkey := congrArg (fun c : String → Option Content => (c "k").isSome) h
    exact absurd hkey (by decide +kernel)

/-- A string replaces whatever the replica has at its key. -/
theorem resync_replaces_string :
    (afterResync oneString ((∅ : Store).insert "k"
      ⟨.list (.small [Utf8.toBytes "a"]), some 5⟩)).contents = oneString.contents := by
  refine (resync_converges_iff smallDeployment noExpiry_oneString (noEmpty_single rfl)
    _ _ _ _).mpr fun k => ?_
  unfold Store.Resyncs oneString
  rw [FinMap.getElem?_insert]
  by_cases hk : "k" = k
  · simp [hk, Value.TakesOver]
  · rw [if_neg hk, getElem?_live, FinMap.getElem?_insert, if_neg hk]
    simp

end Failing

end LoonyRedis
