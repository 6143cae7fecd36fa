import LoonyRedis.KeyAccess

/-!
# Keys as bytes and as text

A request names its keys by bytes, and the store knows them by text : every handler decodes a
key with replacement characters before it touches the store. Two keys that are different as
bytes are one key of the store if they decode to the same text. So a write to one key leaves
another key alone exactly if their texts differ (`keys_separate_iff`).
-/

namespace LoonyRedis

open Std Store Footprint

/-- A command that names the key `k` and no other. -/
def NamesOnly (k : Bytes) (frame : Frame) : Prop :=
  ∃ name args ks, frameName frame = some name ∧ frame = .array (some args) ∧
    keyArgs name args = some ks ∧ ks ≠ [] ∧ ∀ b ∈ ks, b = k

/-- A command that names keys is a data command. -/
theorem keyArgs_eq_nil {name : String} (args : List Frame) (h : name = "CLUSTER" ∨ name = "MIGRATE") :
    keyArgs name args = some [] := by
  rcases h with rfl | rfl <;> rfl

section Single

variable {ctx : CommandContext} {frame : Frame} {k : Bytes} {r : Request}

theorem NamesOnly.isData (h : NamesOnly k frame) : isData frame = true := by
  obtain ⟨name, args, ks, hname, rfl, hks, hne, -⟩ := h
  obtain ⟨cmd, hcmd, rfl⟩ := Option.map_eq_some_iff.mp hname
  have hlocal : ¬ (commandName cmd = "CLUSTER" ∨ commandName cmd = "MIGRATE") := by
    intro hlocal
    rw [keyArgs_eq_nil args hlocal] at hks
    exact hne (Option.some.inj hks).symm
  simpa [LoonyRedis.isData, hcmd] using hlocal

/-- The request of such a command touches the text of its key only. -/
theorem NamesOnly.touched (hraft : ctx.raft = none) (hcluster : ctx.cluster = none)
    (h : NamesOnly k frame) (hr : requestOf ctx frame = some r) : r.touched ⊆ {Utf8.lossy k} := by
  obtain ⟨name, args, ks, hname, rfl, hks, -, hk⟩ := h
  unfold requestOf at hr
  split at hr
  · next name' args' hroute =>
    obtain ⟨hargs, -, cmd, hcmd, rfl, -⟩ := Deployment.route_eq_dispatch hraft hcluster hroute
    obtain rfl := Option.some.inj (Frame.array.inj hargs)
    obtain rfl : commandName cmd = name := by simpa [frameName, hcmd] using hname
    cases hread : readCommand ctx (commandName cmd) args with
    | error f =>
      rw [hread] at hr
      cases hr
    | ok r' =>
      rw [hread] at hr
      obtain rfl : r' = r := Option.some.inj hr
      have hlist : r'.keyList = some (ks.map Utf8.lossy) := by
        rw [keyList_of_readCommand hread, hks]
        rfl
      rw [Request.touched_of_keyList hlist]
      intro key hkey
      obtain ⟨b, hb, rfl⟩ := List.mem_map.mp hkey
      rw [hk b hb]
      rfl
  · cases hr

/-- Such a command sees and changes the text of its key only. -/
theorem NamesOnly.local_execute (hraft : ctx.raft = none) (hcluster : ctx.cluster = none)
    (h : NamesOnly k frame) (elsewhere : Route → Store → Outcome) (env : Env) :
    Local look (fun s => ((execute ctx elsewhere env frame s).reply,
      (execute ctx elsewhere env frame s).store)) {Utf8.lossy k} := by
  rcases execute_of_isData hraft hcluster h.isData elsewhere env with ⟨r, hr, hrun⟩ | ⟨-, f, hrun⟩
  · refine ((r.local_run ctx env).mono (h.touched hraft hcluster hr)).congr fun s => ?_
    rw [hrun]
  · refine Local.congr (.query (q := fun _ => f) fun _ _ _ => rfl) fun s => ?_
    rw [hrun]

end Single

/-! ## Two keys -/

/-- `SET` of a key to the empty string. -/
def setFrame (k : Bytes) : Frame := .bulks [Utf8.toBytes "SET", k, []]

/-- `EXISTS` of a key. -/
def existsFrame (k : Bytes) : Frame := .bulks [Utf8.toBytes "EXISTS", k]

theorem frameName_setFrame (k : Bytes) : frameName (setFrame k) = some "SET" :=
  congrArg some (by decide : commandName (Utf8.toBytes "SET") = "SET")

theorem frameName_existsFrame (k : Bytes) : frameName (existsFrame k) = some "EXISTS" :=
  congrArg some (by decide : commandName (Utf8.toBytes "EXISTS") = "EXISTS")

theorem namesOnly_setFrame (k : Bytes) : NamesOnly k (setFrame k) :=
  ⟨"SET", _, [k], frameName_setFrame k, rfl, rfl, by simp, by simp⟩

theorem namesOnly_existsFrame (k : Bytes) : NamesOnly k (existsFrame k) :=
  ⟨"EXISTS", _, [k], frameName_existsFrame k, rfl, rfl, by simp, by simp⟩

section Colliding

variable {ctx : CommandContext}

/-- A data command on a single node that takes writes. -/
theorem execute_of_name (hraft : ctx.raft = none) (hcluster : ctx.cluster = none)
    (hleader : ctx.isLeader = true) {name : String} (hname : commandName (Utf8.toBytes name) = name)
    (hlocal : ¬ (name = "CLUSTER" ∨ name = "MIGRATE")) (elsewhere : Route → Store → Outcome)
    (env : Env) (parts : List Bytes) (s : Store) :
    execute ctx elsewhere env (.bulks (Utf8.toBytes name :: parts)) s =
      dispatch ctx env name (.bulkStr name :: parts.map fun b => .bulk (some b)) s := by
  have hroute : route ctx (.bulks (Utf8.toBytes name :: parts)) =
      routeCommand ctx (commandName (Utf8.toBytes name))
        (.bulkStr name :: parts.map fun b => .bulk (some b)) := rfl
  rw [execute, hroute, hname, routeCommand_single hraft hcluster]
  simp [routeHere, hleader, hlocal]

theorem execute_setFrame (hraft : ctx.raft = none) (hcluster : ctx.cluster = none)
    (hleader : ctx.isLeader = true) (elsewhere : Route → Store → Outcome) (env : Env) (k : Bytes)
    (s : Store) : (execute ctx elsewhere env (setFrame k) s).store =
      s.insert (Utf8.lossy k) ⟨.string [], none⟩ := by
  have hread : readCommand ctx "SET" [.bulkStr "SET", .bulk (some k), .bulk (some [])] =
      .ok (.set (Utf8.lossy k) [] none false false) := rfl
  rw [setFrame, execute_of_name hraft hcluster hleader (by decide) (by decide)]
  simp only [dispatch, List.map_cons, List.map_nil, hread]
  rfl

theorem execute_existsFrame (hraft : ctx.raft = none) (hcluster : ctx.cluster = none)
    (hleader : ctx.isLeader = true) (elsewhere : Route → Store → Outcome) (env : Env) (k : Bytes)
    (s : Store) : (execute ctx elsewhere env (existsFrame k) s).reply =
      .flag (s.exists_ env.now (Utf8.lossy k)) := by
  have hread : readCommand ctx "EXISTS" [.bulkStr "EXISTS", .bulk (some k)] =
      .ok (.existsKeys [Utf8.lossy k]) := rfl
  rw [existsFrame, execute_of_name hraft hcluster hleader (by decide) (by decide)]
  simp only [dispatch, List.map_cons, List.map_nil, hread, Request.run, List.countP_singleton]
  cases s.exists_ env.now (Utf8.lossy k) <;> rfl

end Colliding

/-- On a single node, the writes that name only `k₁` never change the reply to a read that
names only `k₂`, exactly if the two keys have different texts. -/
theorem keys_separate_iff {ctx : CommandContext} (hraft : ctx.raft = none)
    (hcluster : ctx.cluster = none) (hleader : ctx.isLeader = true)
    (elsewhere : Route → Store → Outcome) (k₁ k₂ : Bytes) :
    (∀ (s : Store) (env env' : Env) (write read : Frame),
      (frameName write).any isWrite = true → NamesOnly k₁ write →
      (frameName read).any isWrite = false → NamesOnly k₂ read →
      (execute ctx elsewhere env' read (execute ctx elsewhere env write s).store).reply =
        (execute ctx elsewhere env' read s).reply) ↔ Utf8.lossy k₁ ≠ Utf8.lossy k₂ := by
  constructor
  · intro h hsame
    have heq := h ∅ (.plain 0) (.plain 0) (setFrame k₁) (existsFrame k₂)
      (by rw [frameName_setFrame]; decide) (namesOnly_setFrame k₁)
      (by rw [frameName_existsFrame]; decide) (namesOnly_existsFrame k₂)
    rw [execute_existsFrame hraft hcluster hleader, execute_existsFrame hraft hcluster hleader,
      execute_setFrame hraft hcluster hleader, hsame] at heq
    simp [exists_, Entry.isExpired, Frame.flag] at heq
  · intro hne s env env' write read _ hwrite _ hread
    exact (hwrite.local_execute hraft hcluster elsewhere env).result_after
      (hread.local_execute hraft hcluster elsewhere env') (by rintro _ rfl; exact Ne.symm hne) s

/-- Two bytes that begin no character. -/
theorem invalid_keys_collide : ([0xFF] : Bytes) ≠ [0xFE] ∧
    NamesOnly [0xFF] (setFrame [0xFF]) ∧ NamesOnly [0xFE] (existsFrame [0xFE]) ∧
    (execute .standalone Deployment.nowhere (.plain 0) (existsFrame [0xFE]) ∅).reply = .flag false ∧
    (execute .standalone Deployment.nowhere (.plain 0) (existsFrame [0xFE])
      (execute .standalone Deployment.nowhere (.plain 0) (setFrame [0xFF]) ∅).store).reply =
        .flag true :=
  ⟨by decide, namesOnly_setFrame _, namesOnly_existsFrame _, by decide, by decide⟩

/-- A byte that begins no character does not collide with a text without replacement
characters. -/
theorem text_key_separate : (execute .standalone Deployment.nowhere (.plain 0) (existsFrame [0x6B])
    (execute .standalone Deployment.nowhere (.plain 0) (setFrame [0xFF]) ∅).store).reply =
      (execute .standalone Deployment.nowhere (.plain 0) (existsFrame [0x6B]) ∅).reply :=
  (@keys_separate_iff .standalone rfl rfl rfl Deployment.nowhere [0xFF] [0x6B]).mpr
    (by decide) ∅ _ _ _ _ (by rw [frameName_setFrame]; decide) (namesOnly_setFrame _)
    (by rw [frameName_existsFrame]; decide) (namesOnly_existsFrame _)

end LoonyRedis
