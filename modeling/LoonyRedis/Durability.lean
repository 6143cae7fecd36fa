import LoonyRedis.AofCoverage
import LoonyRedis.AofRecords
import LoonyRedis.Lib.Journal
import LoonyRedis.Lib.Runs

/-!
# Crashes of a node with an append-only file

A single node serves its calls one after the other, each of which appends its records to the file
before the next call starts.
Its process may end at any time, with any first part of the file left. It starts again with
the records that are complete in that part, replayed on an empty store.

The file describes the store (`AofNode.Inv`) as long as every request is logged if it changes
something, is logged as it was done and sets no expiry, and as long as no crash before a restart
comes inside a record. Then what is recovered after one more crash, anywhere in the file, is the
store after the first requests, changed by a beginning of the records of the next one
(`crash_recovers`).
-/

namespace LoonyRedis

open Std

/-- The context in which a node replays its file at the start. -/
def CommandContext.replaying (ctx : CommandContext) : CommandContext :=
  { ctx with raft := none, cluster := none, health := none, metrics := none,
             isReplicaReplay := true }

/-! ## Records -/

namespace Request

/-- A write that does the same to stores that are the same, whatever they hold. -/
structure Repeats (r : Request) : Prop where
  write : r.isWrite = true
  noExpiry : r.setsExpiry = false
  noDraw : ∀ s, ¬ r.Draws s

end Request

/-- A record that is read as such a write, or not read at all. -/
def Record.Replays (ctx : CommandContext) (rec : Record) : Prop :=
  ∃ name ∈ recordNames, ∃ parts, rec = Utf8.toBytes name :: parts ∧
    ((∃ r, readCommand ctx name (.bulkStr name :: bulkArgs parts) = .ok r ∧ r.Repeats) ∨
      ∃ f, readCommand ctx name (.bulkStr name :: bulkArgs parts) = .error f)

section Records

variable {ctx ctx' : CommandContext} {env : Env} {s : Store} {args : List Frame}

theorem replays_set (key : String) (val : Bytes) :
    Record.Replays ctx [Utf8.toBytes "SET", Utf8.toBytes key, val] :=
  ⟨"SET", by simp [recordNames], _, rfl, .inl ⟨_, read_set ctx key val, rfl, rfl, fun _ h => h⟩⟩

theorem replays_hset (key : String) (field val : Bytes) :
    Record.Replays ctx [Utf8.toBytes "HSET", Utf8.toBytes key, field, val] :=
  ⟨"HSET", by simp [recordNames], _, rfl,
    .inl ⟨_, read_hset ctx key field val, rfl, rfl, fun _ h => h⟩⟩

theorem CounterRecord.replays {key : String} {delta : Text.I64} {rec : Record}
    (h : CounterRecord args key delta rec) : rec.Replays ctx := by
  cases h with
  | unit up =>
    obtain ⟨record, hread⟩ := read_unit ctx up key
    exact ⟨_, by cases up <;> simp [recordNames], _, rfl, .inl ⟨_, hread, rfl, rfl, fun _ h => h⟩⟩
  | operand up n =>
    obtain ⟨record, hread⟩ := read_operand ctx up key
      (Text.wrap (if delta.1 < 0 then -delta.1 else delta.1))
    exact ⟨_, by cases up <;> simp [recordNames], _, rfl, .inl ⟨_, hread, rfl, rfl, fun _ h => h⟩⟩

theorem replays_push (left : Bool) (key : String) (values : List Bytes) : Record.Replays ctx
    (Utf8.toBytes (if left then "LPUSH" else "RPUSH") :: Utf8.toBytes key :: values) := by
  refine ⟨_, by cases left <;> simp [recordNames], _, rfl, ?_⟩
  by_cases hne : values = []
  · subst hne
    exact .inr (read_short ctx (by cases left <;> simp) key)
  · exact .inl ⟨_, read_push ctx left key hne, rfl, rfl, fun _ h => h⟩

/-- Adding no members adds none. -/
theorem members_ne_nil {key : String} {members : List Bytes} {n : ℕ}
    (hok : (s.sadd key members).1 = .ok n) (hpos : 0 < n) : members ≠ [] := by
  rintro rfl
  rw [Store.sadd, Store.upsert] at hok
  split at hok
  · exact absurd (Except.ok.inj hok) (Nat.ne_of_lt hpos)
  · cases hok

theorem mem_log_of {β : Type} {x : Except String β × Store} {fmt : β → Frame}
    {log : β → List Record} {rec : Record} (h : rec ∈ (Outcome.of x fmt log).log) :
    ∃ b, x.1 = .ok b ∧ rec ∈ log b := by
  obtain ⟨b, hb, hlog⟩ := Request.log_of_ne_nil (List.ne_nil_of_mem h)
  rw [hlog] at h
  exact ⟨b, hb, h⟩

/-- The records of a request can be replayed. -/
theorem Request.replays_log {r : Request} (hcounter : r.RecordsCounter args) {rec : Record}
    (h : rec ∈ (r.run ctx env s).log) : rec.Replays ctx' := by
  cases r with
  | del ks =>
    simp only [run] at h
    split at h
    · next hpos =>
      have hne : ks ≠ [] := by
        rintro rfl
        exact absurd hpos (Nat.lt_irrefl 0)
      obtain rfl := List.mem_singleton.mp h
      exact ⟨"DEL", by simp [recordNames], _, rfl,
        .inl ⟨_, read_del ctx' hne, rfl, rfl, fun _ h => h⟩⟩
    · cases h
  | set key val ttl nx xx =>
    simp only [run] at h
    split at h
    · cases h
    · split at h
      · cases h
      · obtain rfl := List.mem_singleton.mp h
        exact replays_set key val
  | mset pairs =>
    obtain ⟨p, -, rfl⟩ := List.mem_map.mp h
    exact replays_set p.1 p.2
  | append key suffix =>
    obtain ⟨n, -, hrec⟩ := mem_log_of h
    obtain rfl := List.mem_singleton.mp hrec
    exact ⟨"APPEND", by simp [recordNames], _, rfl,
      .inl ⟨_, read_append ctx' key suffix, rfl, rfl, fun _ h => h⟩⟩
  | incrby key delta record =>
    obtain ⟨n, -, hrec⟩ := mem_log_of h
    obtain rfl := List.mem_singleton.mp hrec
    exact hcounter.replays
  | getset key val =>
    obtain rfl := List.mem_singleton.mp h
    exact replays_set key val
  | setnx key val =>
    simp only [run] at h
    split at h
    · cases h
    · obtain rfl := List.mem_singleton.mp h
      exact replays_set key val
  | push left key values =>
    obtain ⟨n, -, hrec⟩ := mem_log_of h
    obtain rfl := List.mem_singleton.mp hrec
    exact replays_push left key values
  | hset key pairs =>
    obtain ⟨n, -, hrec⟩ := mem_log_of h
    obtain ⟨p, -, rfl⟩ := List.mem_map.mp hrec
    exact replays_hset key p.1 p.2
  | sadd key members =>
    obtain ⟨n, hok, hrec⟩ := mem_log_of h
    obtain ⟨hpos, hmem⟩ := List.mem_ite_nil_right.mp hrec
    obtain rfl := List.mem_singleton.mp hmem
    exact ⟨"SADD", by simp [recordNames], _, rfl,
      .inl ⟨_, read_sadd ctx' key (members_ne_nil hok hpos), rfl, rfl, fun _ h => h⟩⟩
  | zadd key flags steps =>
    obtain ⟨n, hok, hrec⟩ := mem_log_of h
    obtain ⟨-, hmem⟩ := List.mem_ite_nil_right.mp hrec
    obtain rfl := List.mem_singleton.mp hmem
    exact ⟨"ZADD", by simp [recordNames], _, rfl, .inr (read_short ctx' (by simp) key)⟩
  | _ => first
    | cases h
    | exact absurd log_change (List.ne_nil_of_mem h)

end Records

/-- What is logged if it changes something draws nothing. -/
theorem Request.not_draws_of_covered {s : Store} {r : Request} (h : r.Covered s) : ¬ r.Draws s := by
  cases r with
  | spop key count =>
    rintro ⟨hcount, e, t, hkey, hview, hlen⟩
    rcases (Store.ifHeld_iff hkey hview).mp h with hzero | rfl
    · omega
    · exact absurd hcount (by decide)
  | _ => exact id

/-! ## Replaying -/

section Replaying

variable {ctx : CommandContext} {elsewhere elsewhere' : Route → Store → Outcome}
  {env env' : Env} {envAt : ℕ → Env} {s t : Store} {rs : List Record}

/-- A record is replayed in the same way at any time. -/
theorem Record.Replays.same {rec : Record} (hrec : rec.Replays ctx)
    (hreplay : ctx.isReplicaReplay = true) (h : s.Same t) :
    (execute ctx elsewhere env (.bulks rec) s).store.Same
      (execute ctx elsewhere' env' (.bulks rec) t).store := by
  obtain ⟨name, hname, parts, rfl, ⟨r, hread, hr⟩ | hread⟩ := hrec
  · rw [execute_read hreplay hname hread, execute_read hreplay hname hread]
    exact (Request.run_agree_of_not_draws hr.write hr.noExpiry h (hr.noDraw s) ..).store
  · rw [execute_unread hreplay hname hread, execute_unread hreplay hname hread]
    exact h

/-- Replay one record; the time does not matter (`applyLog_same_foldl`). -/
def applyRecord (ctx : CommandContext) (s : Store) (rec : Record) : Store :=
  (execute ctx Deployment.nowhere (.plain 0) (.bulks rec) s).store

theorem applyLog_same_foldl (hreplay : ctx.isReplicaReplay = true)
    (hrs : ∀ r ∈ rs, Record.Replays ctx r) (h : s.Same t) (i : ℕ) :
    (applyLog ctx elsewhere envAt i (rs.map Frame.bulks) s).Same
      (rs.foldl (applyRecord ctx) t) := by
  induction rs generalizing s t i with
  | nil => exact h
  | cons r rs ih =>
    rw [List.forall_mem_cons] at hrs
    exact ih hrs.2 (hrs.1.same hreplay h) (i + 1)

/-- The bytes of records, as the space they take. -/
theorem length_writeResps (rs : List Record) :
    (writeResps rs).length = Journal.space (fun r => (writeResp r).length) rs := by
  rw [writeResps, List.length_flatMap]
  rfl

theorem completeRecords_eq (rs : List Record) (n : ℕ) :
    completeRecords rs n = Journal.complete (fun r => (writeResp r).length) rs n := by
  induction rs generalizing n with
  | nil => rfl
  | cons r rs ih => rw [completeRecords, Journal.complete, ih]

end Replaying

/-! ## The node -/

/-- A node with an append-only file. `served` is the history of its calls and restarts, with
the records that the file has of them, which the node itself does not keep. -/
structure AofNode where
  store : Store
  file : Bytes
  served : List (Journal.Entry Store Record)

/-- What happens to a node and its file. -/
inductive AofEvent where
  /-- A frame of a client is served, and its records are appended. -/
  | call (env : Env) (frame : Frame)
  /-- The process ends with the first `n` bytes in the file, and starts again. -/
  | restart (n : ℕ) (envAt : ℕ → Env)

namespace AofNode

variable (ctx : CommandContext) (elsewhere : Route → Store → Outcome)

/-- A node that starts without a file. -/
def start : AofNode := ⟨∅, [], []⟩

/-- The store of a node that starts with a file. -/
def load (envAt : ℕ → Env) (file : Bytes) : Store :=
  applyLog ctx.replaying elsewhere envAt 0 (loadFrames file) ∅

/-- The calls whose records are in the first `n` bytes, and the records of the next one
there. -/
def cut (σ : AofNode) (n : ℕ) : List (Journal.Entry Store Record) × List Record :=
  Journal.cut (fun r => (writeResp r).length) σ.served n

/-- A call is served and written before the next event. A restart has the file only. -/
def step (σ : AofNode) : AofEvent → Option AofNode
  | .call env frame =>
    let o := execute ctx elsewhere env frame σ.store
    some ⟨o.store, σ.file ++ writeResps o.log, σ.served ++ [⟨o.log, o.store⟩]⟩
  | .restart n envAt =>
    let store := load ctx elsewhere envAt (σ.file.take n)
    some ⟨store, σ.file.take n, (σ.cut n).1 ++ [⟨(σ.cut n).2, store⟩]⟩

/-- A data command sets no expiry, is logged if it changes something, and as it was done. A
process that starts again finds whole records. -/
def Clean (σ : AofNode) : AofEvent → Prop
  | .call env frame => isData frame = true ∧ ∀ name args r, route ctx frame = .dispatch name args →
      readCommand ctx name args = .ok r → r.setsExpiry = false ∧ r.Covered σ.store ∧
        ((r.run ctx env σ.store).log ≠ [] → r.Faithful args σ.store) ∧
        ∀ rec ∈ (r.run ctx env σ.store).log, Record.Fits rec
  | .restart n _ => ∃ rs, (∀ r ∈ rs, Record.Fits r) ∧ σ.file.take n = writeResps rs

/-- The file describes the store. -/
structure Inv (σ : AofNode) : Prop where
  file : σ.file = writeResps (Journal.records σ.served)
  fits : ∀ r ∈ Journal.records σ.served, Record.Fits r
  replays : ∀ r ∈ Journal.records σ.served, Record.Replays ctx.replaying r
  describes : Journal.Describes (applyRecord ctx.replaying) Store.Same ∅ σ.served
  final : Journal.final ∅ σ.served = σ.store
  noExpiry : σ.store.NoExpiry

variable {ctx elsewhere} {σ τ : AofNode}

theorem inv_start : start.Inv ctx where
  file := rfl
  fits := fun _ hr => absurd hr List.not_mem_nil
  replays := fun _ hr => absurd hr List.not_mem_nil
  describes := trivial
  final := rfl
  noExpiry := Store.same_empty.left

/-- What a clean request leaves is what its records lead to. -/
theorem describes_run {args : List Frame} {s : Store} {r : Request} {env : Env} (hs : s.NoExpiry)
    (hcounter : r.RecordsCounter args) (hexp : r.setsExpiry = false) (hcovered : r.Covered s)
    (hfaithful : (r.run ctx env s).log ≠ [] → r.Faithful args s) :
    ((r.run ctx env s).log.foldl (applyRecord ctx.replaying) s).Same (r.run ctx env s).store := by
  have hafter : (r.run ctx env s).store.NoExpiry := by
    cases hwrite : r.isWrite with
    | false => rwa [Request.run_store_of_not_isWrite hwrite hs]
    | true =>
      have hdraws : ¬ r.Draws s := Request.not_draws_of_covered hcovered
      exact (Request.run_agree_of_not_draws hwrite hexp (Store.Same.refl hs) hdraws
        ctx ctx env env).store.left
  have hrecords (rec : Record) (hrec : rec ∈ (r.run ctx env s).log) :
      rec.Replays ctx.replaying := Request.replays_log hcounter hrec
  have hfold := @applyLog_same_foldl ctx.replaying Deployment.nowhere (fun _ => .plain 0) s s _ rfl
    hrecords (Store.Same.refl hs) 0
  refine ⟨?_, hfold.right, hafter⟩
  rw [← hfold.contents]
  by_cases hlog : (r.run ctx env s).log = []
  · have hsame : (r.run ctx env s).Recorded s := (Request.recorded_run_iff hs r).mpr hcovered
    rw [hlog, not_not.mp fun hne => hsame hne hlog]
    rfl
  · exact (Request.faithful_iff rfl hs hcounter hlog).mpr (hfaithful hlog)

/-- One more entry, whose records are appended. -/
theorem Inv.concat {log : List Record} {store : Store} (h : σ.Inv ctx)
    (hfit : ∀ r ∈ log, Record.Fits r) (hreplays : ∀ r ∈ log, Record.Replays ctx.replaying r)
    (hsame : (log.foldl (applyRecord ctx.replaying) σ.store).Same store) :
    Inv ctx ⟨store, σ.file ++ writeResps log, σ.served ++ [⟨log, store⟩]⟩ where
  file := by simp only [Journal.records_append, Journal.records_singleton, h.file, writeResps,
    List.flatMap_append]
  fits := by
    simp only [Journal.records_append, Journal.records_singleton, List.forall_mem_append]
    exact ⟨h.fits, hfit⟩
  replays := by
    simp only [Journal.records_append, Journal.records_singleton, List.forall_mem_append]
    exact ⟨h.replays, hreplays⟩
  describes := by
    rw [Journal.describes_concat, h.final]
    exact ⟨h.describes, hsame⟩
  final := Journal.final_append_singleton _ _ _
  noExpiry := hsame.right

/-- One call. -/
theorem inv_call {env : Env} {frame : Frame} (hraft : ctx.raft = none)
    (hcluster : ctx.cluster = none) (h : σ.Inv ctx) (hclean : Clean ctx σ (.call env frame))
    (hstep : step ctx elsewhere σ (.call env frame) = some τ) : τ.Inv ctx := by
  obtain ⟨hdata, hok⟩ := hclean
  obtain rfl := Option.some.inj hstep
  have hnothing {f : Frame} (hexec : execute ctx elsewhere env frame σ.store = ⟨f, σ.store, []⟩) :
      Inv ctx ⟨(execute ctx elsewhere env frame σ.store).store,
        σ.file ++ writeResps (execute ctx elsewhere env frame σ.store).log,
        σ.served ++ [⟨(execute ctx elsewhere env frame σ.store).log,
          (execute ctx elsewhere env frame σ.store).store⟩]⟩ := by
    rw [hexec]
    exact h.concat (by simp) (by simp) (Store.Same.refl h.noExpiry)
  rcases route_of_isData hraft hcluster hdata with ⟨f, hroute⟩ | ⟨name, args, hroute⟩
  · exact hnothing (by rw [execute, hroute])
  · cases hread : readCommand ctx name args with
    | error f => exact @hnothing f (by simp only [execute, hroute, dispatch, hread])
    | ok r =>
      have hexec : execute ctx elsewhere env frame σ.store = r.run ctx env σ.store := by
        simp only [execute, hroute, dispatch, hread]
      obtain ⟨hexp, hcovered, hfaithful, hfit⟩ := hok name args r hroute hread
      have hcounter := recordsCounter_of_readCommand hread
      rw [hexec]
      exact h.concat hfit (fun rec hrec => Request.replays_log hcounter hrec)
        (describes_run h.noExpiry hcounter hexp hcovered hfaithful)

/-- The first entries by themselves. -/
theorem Inv.initial {done later : List (Journal.Entry Store Record)} (h : σ.Inv ctx)
    (hserved : σ.served = done ++ later) :
    Inv ctx ⟨Journal.final ∅ done, writeResps (Journal.records done), done⟩ := by
  have hfits := h.fits
  have hreplays := h.replays
  have hdescribes := h.describes
  simp only [hserved, Journal.records_append, List.forall_mem_append] at hfits hreplays
  rw [hserved, Journal.describes_append] at hdescribes
  have hfold := Journal.replay_records hdescribes.1 (fun _ _ _ => Store.Same.trans)
    (fun r hr _ _ hst => (hreplays.1 r hr).same rfl hst) Store.same_empty
  exact ⟨rfl, hfits.1, hreplays.1, hdescribes.1, rfl, hfold.right⟩

/-- What a node recovers from the first `n` bytes of its file. -/
theorem Inv.load_take_same (h : σ.Inv ctx) (elsewhere : Route → Store → Outcome) (n : ℕ)
    (envAt : ℕ → Env) :
    (load ctx elsewhere envAt (σ.file.take n)).Same
      ((σ.cut n).2.foldl (applyRecord ctx.replaying) (Journal.final ∅ (σ.cut n).1)) := by
  rw [load, h.file, loadFrames_take h.fits, completeRecords_eq]
  have hcomplete (r : Record) (hr : r ∈ Journal.complete (fun r => (writeResp r).length)
      (Journal.records σ.served) n) : r.Replays ctx.replaying :=
    h.replays r ((Journal.complete_initial _ _ n).subset hr)
  refine (applyLog_same_foldl rfl hcomplete Store.same_empty 0).trans ?_
  exact Journal.replay_complete h.describes (fun _ _ _ => Store.Same.trans)
    (fun r hr _ _ hst => (h.replays r hr).same rfl hst) Store.same_empty n

/-- One restart. -/
theorem inv_restart {n : ℕ} {envAt : ℕ → Env} (h : σ.Inv ctx)
    (hclean : Clean ctx σ (.restart n envAt))
    (hstep : step ctx elsewhere σ (.restart n envAt) = some τ) : τ.Inv ctx := by
  obtain ⟨rs, hrs, htake⟩ := hclean
  obtain rfl := Option.some.inj hstep
  have hcut := Journal.records_cut (fun r => (writeResp r).length) σ.served n
  have hwhole : rs = Journal.records (σ.cut n).1 ++ (σ.cut n).2 := by
    have hload := loadFrames_take h.fits n
    rw [← h.file, htake, loadFrames_writeResps hrs, completeRecords_eq, hcut] at hload
    exact List.map_injective_iff.mpr Frame.bulks_injective hload
  have hpart : ∀ r ∈ (σ.cut n).2, Record.Fits r ∧ r.Replays ctx.replaying := by
    intro r hr
    have hmem : r ∈ Journal.records σ.served := by
      refine (Journal.complete_initial (fun r => (writeResp r).length) _ n).subset ?_
      rw [hcut]
      exact List.mem_append_right _ hr
    exact ⟨h.fits r hmem, h.replays r hmem⟩
  obtain ⟨later, hserved, -⟩ := Journal.cut_spec (fun r => (writeResp r).length) σ.served n
  have hinv := (h.initial hserved).concat (fun r hr => (hpart r hr).1) (fun r hr => (hpart r hr).2)
    (h.load_take_same elsewhere n envAt).symm
  have hfile : σ.file.take n =
      writeResps (Journal.records (σ.cut n).1) ++ writeResps (σ.cut n).2 := by
    rw [htake, hwhole, writeResps, List.flatMap_append]
    rfl
  dsimp only at hinv
  rw [← cut, ← hfile] at hinv
  exact hinv

theorem inv_step {ev : AofEvent} (hraft : ctx.raft = none) (hcluster : ctx.cluster = none)
    (h : σ.Inv ctx) (hclean : Clean ctx σ ev) (hstep : step ctx elsewhere σ ev = some τ) :
    τ.Inv ctx := by
  cases ev with
  | call env frame => exact inv_call hraft hcluster h hclean hstep
  | restart n envAt => exact inv_restart h hclean hstep

end AofNode

open AofNode in
/-- In every run of a single node with an append-only file, whose requests are all logged as they
were done and whose restarts found whole records : what a process recovers from any first part
of the file is the store after the first entries of the history, changed by a beginning of the
records of the next one, which are not all in that part; and from the whole file, what the store
contains. -/
theorem crash_recovers {ctx : CommandContext} (hraft : ctx.raft = none)
    (hcluster : ctx.cluster = none) {elsewhere : Route → Store → Outcome} {σ : AofNode}
    (hrun : Runs.Run (step ctx elsewhere) (Clean ctx) start σ) (n : ℕ) (envAt : ℕ → Env) :
    (∃ done later part, σ.served = done ++ later ∧
      (load ctx elsewhere envAt (σ.file.take n)).contents =
        (part.foldl (applyRecord ctx.replaying) (Journal.final ∅ done)).contents ∧
      (later = [] ∧ part = [] ∨ ∃ e rest, later = e :: rest ∧ part <+: e.log ∧ part ≠ e.log ∧
        n < (writeResps (Journal.records done ++ e.log)).length)) ∧
    (load ctx elsewhere envAt σ.file).contents = σ.store.contents := by
  have inv : σ.Inv ctx := hrun.invariant (I := fun σ => σ.Inv ctx)
    (fun _ _ _ h hclean hstep => inv_step hraft hcluster h hclean hstep) inv_start
  obtain ⟨later, hserved, hlater⟩ :=
    Journal.cut_spec (fun r => (writeResp r).length) σ.served n
  refine ⟨⟨_, later, _, hserved, (inv.load_take_same elsewhere n envAt).contents, ?_⟩, ?_⟩
  · simp only [length_writeResps]
    exact hlater
  · have hload := (inv.load_take_same elsewhere σ.file.length envAt).contents
    have hcut : σ.cut σ.file.length = (σ.served, []) := by
      refine Journal.cut_of_le ?_
      rw [inv.file, length_writeResps]
    rwa [List.take_length, hcut, inv.final] at hload

section Torn

/-- `MSET` of two keys. -/
def msetTwo : Frame := .command ["MSET", "a", "1", "b", "2"]

/-- The node after `MSET` of two keys. -/
def afterMset : AofNode :=
  (AofNode.step .standalone Deployment.nowhere .start (.call (.plain 0) msetTwo)).getD .start

/-- A test for a request that sets several keys. -/
def asksMset : Option Request → Bool
  | some (.mset _) => true
  | _ => false

theorem clean_mset : AofNode.Clean .standalone AofNode.start (.call (.plain 0) msetTwo) := by
  have hlog : (execute .standalone Deployment.nowhere (.plain 0) msetTwo ∅).log =
      [["SET", "a", "1"].map Utf8.toBytes, ["SET", "b", "2"].map Utf8.toBytes] := by decide +kernel
  refine ⟨by decide, fun name args r hroute hread => ?_⟩
  have hr : requestOf .standalone msetTwo = some r := by
    rw [requestOf, hroute]
    simp [hread, Except.toOption]
  have hrun : execute .standalone Deployment.nowhere (.plain 0) msetTwo ∅ =
      r.run .standalone (.plain 0) ∅ := by
    simp only [execute, hroute, dispatch, hread]
  have hmset : asksMset (requestOf .standalone msetTwo) = true := by decide
  rw [hr] at hmset
  cases r with
  | mset pairs =>
    refine ⟨rfl, trivial, fun _ => trivial, ?_⟩
    have hfit : ∀ rec ∈ (execute .standalone Deployment.nowhere (.plain 0) msetTwo ∅).log,
        Record.Fits rec := by
      rw [hlog]
      simp only [List.map, Record.Fits, Frame.bulks, List.forall_mem_cons, List.not_mem_nil,
        IsEmpty.forall_iff, implies_true, Frame.Fits, Frame.AllFit]
      decide
    rwa [hrun] at hfit
  | _ => cases hmset

/-- What a node recovers that starts with the first `n` bytes of the file after `MSET`. -/
def loadMset (n : ℕ) : Store :=
  AofNode.load .standalone Deployment.nowhere (fun _ => .plain 0) (afterMset.file.take n)

/-- A process that ends inside the second record has the first key only, and one that starts
with the whole file has what was there. -/
theorem crash_recovers_mset :
    (stringAt (loadMset 40) "a" = some (Utf8.toBytes "1") ∧ stringAt (loadMset 40) "b" = none) ∧
    (∃ done later part, afterMset.served = done ++ later ∧ (loadMset 40).contents =
      (List.foldl (applyRecord CommandContext.standalone.replaying)
        (Journal.final ∅ done) part).contents) ∧
    (AofNode.load .standalone Deployment.nowhere (fun _ => .plain 0) afterMset.file).contents =
      afterMset.store.contents := by
  have hrun : Runs.Run (AofNode.step .standalone Deployment.nowhere)
      (AofNode.Clean .standalone) AofNode.start afterMset := .tail (.refl _) clean_mset rfl
  obtain ⟨⟨done, later, part, hserved, hpart, -⟩, hwhole⟩ :=
    crash_recovers rfl rfl hrun 40 fun _ => .plain 0
  exact ⟨by decide +kernel, ⟨done, later, part, hserved, hpart⟩, hwhole⟩

end Torn

end LoonyRedis
