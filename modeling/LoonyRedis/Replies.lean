import LoonyRedis.Membership
import LoonyRedis.ReplyTexts

/-!
# Replies on the wire

A reply is sent as one frame, and a client that sends several requests at once counts
frames to tell which reply answers which request. A simple string or an error is sent as
a line, so a text with a line end in it is read back as something else.

The texts of the replies are fixed but for those that quote the request : the name of an
unknown command, an unknown subcommand of `CLUSTER` or `DEBUG`, and the address that `MIGRATE`
could not reach. `reply_is_one_frame_iff` says that on a single node a reply is read back as it
was sent if and only if no quoted text has a line end.
-/

namespace LoonyRedis

open Text (oneLine_ofList oneLine_between)

/-! ## A single node -/

/-- How a call of another address ends : with a frame that was read from it, an error of the
system, or nothing in time. -/
inductive PeerCall where
  | answered (resp : Frame) (hread : ∃ b n, parseFrame b = .ok (some (resp, n)))
  | failed (e : String)
  | timedOut

/-- Send a command to `addr` and return the response. -/
def sendInternal (net : String → Frame → PeerCall) (addr : String) (frame : Frame) : Frame :=
  match net addr frame with
  | .answered resp _ => resp
  | .failed e => .error s!"ERR internal RPC to {addr} failed: {e}"
  | .timedOut => .error s!"ERR internal RPC to {addr} timed out"

/-- The error of `CLUSTER` on a node without a cluster. -/
def notEnabled : Frame := .error "ERR cluster mode not enabled"

/-- The `CLUSTER` command on a node that is not in a cluster. -/
def cmdClusterDisabled (health : Option (List (String × NodeState))) (args : List Frame) : Frame :=
  match ((bulkAsStr args 1).map Text.toUppercase).getD "" with
  | "INFO" => .bulkStr "cluster_enabled:0\r\ncluster_state:ok\r\n"
  | "NODES" => .bulkStr ""
  | "SLOTS" | "SHARDS" => .emptyArray
  | "MYID" => .bulkStr ""
  | "KEYSLOT" =>
    if args.length < 3 then wrongNumArgs "cluster|keyslot"
    else match bulkBytes args 2 with
      | some k => .integer (slotForKey k)
      | none => wrongNumArgs "cluster|keyslot"
  | "RESET" => .ok
  | "HEALTH" =>
    match health with
    | none => .bulkStr "cluster health monitoring not enabled"
    | some rows => .bulkStr ("\r\n".intercalate ((rows.mergeSort fun a b => a.1 ≤ b.1).map fun r =>
        r.1 ++ " " ++ r.2.asStr))
  | "GOSSIP" =>
    match bulkAsStr args 2 with
    | none => wrongNumArgs "cluster|gossip"
    | some _ => .ok
  | "MEET" =>
    if args.length < 4 then wrongNumArgs "cluster|meet"
    else match bulkAsStr args 2, (bulkAsStr args 3).bind fun s => Text.parseU16 s.toList with
      | none, _ => wrongNumArgs "cluster|meet"
      | some _, none => .error "ERR invalid port"
      | some _, some _ => notEnabled
  | "FORGET" =>
    if args.length < 3 then wrongNumArgs "cluster|forget"
    else match bulkAsStr args 2 with
      | none => wrongNumArgs "cluster|forget"
      | some _ => notEnabled
  | "SYNC" =>
    match bulkAsStr args 2 with
    | none => wrongNumArgs "cluster|sync"
    | some _ => notEnabled
  | "DRAIN" =>
    match bulkAsStr args 2 with
    | none => wrongNumArgs "cluster|drain"
    | some _ => notEnabled
  | sub => .error s!"ERR unknown CLUSTER subcommand `{sub}`"

/-- The `MIGRATE` command of a single node : the calls do not come back to it. -/
def migrateAway (net : String → Frame → PeerCall) (env : Env) (args : List Frame) (s : Store) :
    Frame × Store :=
  let r := cmdMigrate (fun addr frame w => (sendInternal net addr frame, w)) env "" args s
    fun _ => some ⟨s, .forRouting []⟩
  (r.1, (r.2 "").elim ∅ ClusterNode.store)

/-- What a single node does with the commands that talk to other nodes. -/
def remoteAlone (ctx : CommandContext) (net : String → Frame → PeerCall) (env : Env) :
    Route → Store → Outcome
  | .remote name args, s =>
    if name = "CLUSTER" then ⟨cmdClusterDisabled ctx.health args, s, []⟩
    else ⟨(migrateAway net env args s).1, (migrateAway net env args s).2, []⟩
  -- Without Raft and cluster nothing else leaves the node.
  | _, s => ⟨panicked, s, []⟩

/-- Execute a frame, with the peers as they answer. -/
def executeAlone (ctx : CommandContext) (net : String → Frame → PeerCall) (env : Env) :
    Frame → Store → Outcome := execute ctx (remoteAlone ctx net env) env

/-! ## What a reply quotes -/

/-- The texts that the response of a call of `host` quotes have no line end. -/
def PeerCall.OneLine (host : String) : PeerCall → Prop
  | .answered _ _ => True
  | .failed e => Text.OneLine host ∧ Text.OneLine e
  | .timedOut => Text.OneLine host

/-- The texts that the reply to `MIGRATE` quotes have no line end. -/
def MigrateOneLine (net : String → Frame → PeerCall) (env : Env) (args : List Frame) (s : Store) :
    Prop :=
  ∀ host port key, 6 ≤ args.length → bulkAsStr args 1 = some host →
    ((bulkAsStr args 2).bind fun p => Text.parseU16 p.toList) = some port →
    bulkAsStr args 3 = some key → ∀ v s', s.get env.now key = (some v, s') →
      (net s!"{host}:{port}" (buildValueFrame env key v (s'.pttl env.now key))).OneLine host

/-- The texts of a request that its reply quotes have no line end. -/
def QuotesOneLine (net : String → Frame → PeerCall) (env : Env) (s : Store) : Frame → Prop
  | .array (some args) => ∀ cmd, bulkBytes args 0 = some cmd →
      Text.OneLine (commandName cmd) ∧
      (commandName cmd = "CLUSTER" ∨ commandName cmd = "DEBUG" →
        ∀ sub, bulkAsStr args 1 = some sub → Text.OneLine sub) ∧
      (commandName cmd = "MIGRATE" → MigrateOneLine net env args s)
  | _ => True

/-! ## The commands that quote their arguments -/

theorem need_some_bind {α : Type} (a : α) (f : Frame) (g : α → Reading) :
    need (some a) f >>= g = g a := rfl

theorem answersOneLine_debug (ctx : CommandContext) (args : List Frame) :
    AnswersOneLine (cmdDebug ctx args) ↔
      ∀ sub, bulkAsStr args 1 = some sub → Text.OneLine sub := by
  unfold cmdDebug
  cases hsub : bulkAsStr args 1 with
  | none => exact iff_of_true (Frame.oneLine_error_ofList (by decide)) fun _ h => nomatch h
  | some sub =>
    simp only [Option.map_some, need_some_bind, Option.some.injEq, forall_eq']
    rw [← Text.oneLine_toUppercase sub]
    generalize Text.toUppercase sub = w
    split
    · exact iff_of_true Frame.oneLine_ok (oneLine_ofList (by decide))
    · refine iff_of_true ?_ (oneLine_ofList (by decide))
      exact answersOneLine_text (oneLine_ofList (by decide)) fun _ => trivial
    · refine iff_of_true ?_ (oneLine_ofList (by decide))
      exact answersOneLine_answer (Frame.oneLine_bulkStr _)
    · refine iff_of_true ?_ (oneLine_ofList (by decide))
      exact answersOneLine_answer (Frame.oneLine_bulkStr _)
    · exact iff_of_true Frame.oneLine_ok (oneLine_ofList (by decide))
    · exact iff_of_true Frame.oneLine_ok (oneLine_ofList (by decide))
    · exact iff_of_true Frame.oneLine_ok (oneLine_ofList (by decide))
    · exact Frame.oneLine_error.trans
        (oneLine_between (by decide) (by decide))

theorem oneLine_notEnabled : notEnabled.OneLine := Frame.oneLine_error_ofList (by decide)

theorem cmdClusterDisabled_oneLine (health : Option (List (String × NodeState)))
    (args : List Frame) : (cmdClusterDisabled health args).OneLine ↔
      ∀ sub, bulkAsStr args 1 = some sub → Text.OneLine sub := by
  have hquoted : (∀ sub, bulkAsStr args 1 = some sub → Text.OneLine sub) ↔
      Text.OneLine (((bulkAsStr args 1).map Text.toUppercase).getD "") := by
    cases bulkAsStr args 1 with
    | none => exact iff_of_true (fun _ h => nomatch h) (oneLine_ofList (by decide))
    | some sub => simp [Text.oneLine_toUppercase]
  rw [hquoted]
  unfold cmdClusterDisabled
  generalize ((bulkAsStr args 1).map Text.toUppercase).getD "" = w
  have hargs {cmd : String} (h : Text.OneLine cmd) := oneLine_wrongNumArgs h
  split
  · exact iff_of_true (Frame.oneLine_bulkStr _) (oneLine_ofList (by decide))
  · exact iff_of_true (Frame.oneLine_bulkStr _) (oneLine_ofList (by decide))
  · exact iff_of_true Frame.oneLine_emptyArray (oneLine_ofList (by decide))
  · exact iff_of_true Frame.oneLine_emptyArray (oneLine_ofList (by decide))
  · exact iff_of_true (Frame.oneLine_bulkStr _) (oneLine_ofList (by decide))
  · refine iff_of_true ?_ (oneLine_ofList (by decide))
    split
    · exact hargs (oneLine_ofList (by decide))
    · split
      · exact Frame.oneLine_integer _
      · exact hargs (oneLine_ofList (by decide))
  · exact iff_of_true Frame.oneLine_ok (oneLine_ofList (by decide))
  · refine iff_of_true ?_ (oneLine_ofList (by decide))
    split <;> exact Frame.oneLine_bulkStr _
  · refine iff_of_true ?_ (oneLine_ofList (by decide))
    split
    · exact hargs (oneLine_ofList (by decide))
    · exact Frame.oneLine_ok
  · refine iff_of_true ?_ (oneLine_ofList (by decide))
    split
    · exact hargs (oneLine_ofList (by decide))
    · split
      · exact hargs (oneLine_ofList (by decide))
      · exact Frame.oneLine_error_ofList (by decide)
      · exact oneLine_notEnabled
  · refine iff_of_true ?_ (oneLine_ofList (by decide))
    split
    · exact hargs (oneLine_ofList (by decide))
    · split
      · exact hargs (oneLine_ofList (by decide))
      · exact oneLine_notEnabled
  · refine iff_of_true ?_ (oneLine_ofList (by decide))
    split
    · exact hargs (oneLine_ofList (by decide))
    · exact oneLine_notEnabled
  · refine iff_of_true ?_ (oneLine_ofList (by decide))
    split
    · exact hargs (oneLine_ofList (by decide))
    · exact oneLine_notEnabled
  · exact Frame.oneLine_error.trans
      (oneLine_between (by decide) (by decide))

theorem oneLine_address (host : String) (port : ℕ) :
    Text.OneLine s!"{host}:{port}" ↔ Text.OneLine host := by
  have hport : Text.OneLine (toString port) := by
    rintro ⟨u, v, huv⟩
    have hmem : '\r' ∈ (toString port).toList := by rw [← huv]; simp
    rw [Nat.toString_eq_repr, Nat.toList_repr] at hmem
    exact absurd (Nat.isDigit_of_mem_toDigits (by decide) (by decide) hmem) (by decide)
  have hsplit : Text.OneLine (host ++ ":" ++ toString port) ↔ Text.OneLine host := by
    rw [Text.oneLine_append (.inl (by simp)), Text.oneLine_append (.inr (by decide))]
    exact ⟨fun h => h.1.1, fun h => ⟨⟨h, by decide⟩, hport⟩⟩
  exact hsplit

theorem oneLine_of_read {f : Frame} (h : ∃ b n, parseFrame b = .ok (some (f, n))) : f.OneLine := by
  obtain ⟨b, n, hread⟩ := h
  obtain ⟨c, r, -, -, hw⟩ := parseFrame_eq_some_iff.mp hread
  exact yieldsOneLine_parseValue _ b f r hw

theorem sendInternal_oneLine_of_not_isError {net : String → Frame → PeerCall} {addr : String}
    {frame : Frame} (h : (sendInternal net addr frame).isError = false) :
    (sendInternal net addr frame).OneLine := by
  unfold sendInternal at h ⊢
  split
  · next hread _ => exact oneLine_of_read hread
  · next heq =>
    rw [heq] at h
    cases h
  · next heq =>
    rw [heq] at h
    cases h

/-- What was read from another node is on one line; an error of the call quotes the address. -/
theorem sendInternal_oneLine (net : String → Frame → PeerCall) (host : String) (port : ℕ)
    (frame : Frame) : (sendInternal net s!"{host}:{port}" frame).OneLine ↔
      (net s!"{host}:{port}" frame).OneLine host := by
  have haddr := oneLine_address host port
  unfold sendInternal
  generalize s!"{host}:{port}" = addr at haddr ⊢
  cases net addr frame with
  | answered resp hread => exact iff_of_true (oneLine_of_read hread) trivial
  | failed e =>
    have hquoted : Text.OneLine ("ERR internal RPC to " ++ addr ++ " failed: " ++ e) ↔
        Text.OneLine addr ∧ Text.OneLine e := by
      have hlast : ("ERR internal RPC to " ++ addr ++ " failed: ").toList.getLast? = some ' ' := by
        rw [String.toList_append, List.getLast?_append]
        rfl
      rw [Text.oneLine_append (.inl (by rw [hlast]; decide)),
        oneLine_between (by decide) (by decide)]
    rw [Frame.oneLine_error, PeerCall.OneLine, ← haddr]
    exact hquoted
  | timedOut =>
    rw [Frame.oneLine_error, PeerCall.OneLine, ← haddr]
    exact oneLine_between (by decide) (by decide)

/-- What `MIGRATE` relays is a line, since it was read as one. -/
theorem migrateAway_oneLine (net : String → Frame → PeerCall) (env : Env) (args : List Frame)
    (s : Store) : (migrateAway net env args s).1.OneLine ↔ MigrateOneLine net env args s := by
  have hargs := @oneLine_wrongNumArgs "migrate" (oneLine_ofList (by decide))
  unfold migrateAway cmdMigrate MigrateOneLine
  by_cases hlen : args.length < 6
  · rw [if_pos hlen]
    exact iff_of_true hargs fun _ _ _ hle => absurd hlen (not_lt.mpr hle)
  rw [if_neg hlen]
  cases hhost : bulkAsStr args 1 with
  | none => exact iff_of_true hargs fun _ _ _ _ h => nomatch h
  | some host =>
    cases hport : (bulkAsStr args 2).bind fun p => Text.parseU16 p.toList with
    | none =>
      exact iff_of_true (Frame.oneLine_error_ofList (by decide)) fun _ _ _ _ _ h => nomatch h
    | some port =>
      cases hkey : bulkAsStr args 3 with
      | none => exact iff_of_true hargs fun _ _ _ _ _ _ h => nomatch h
      | some key =>
        cases hget : s.get env.now key with
        | mk v s' =>
          have hall (P : String → ℕ → String → Prop) : (∀ host' port' key', 6 ≤ args.length →
              some host = some host' → some port = some port' → some key = some key' →
                P host' port' key') ↔ P host port key := by
            refine ⟨fun h => h host port key (not_lt.mp hlen) rfl rfl rfl, ?_⟩
            rintro h _ _ _ _ ⟨rfl⟩ ⟨rfl⟩ ⟨rfl⟩
            exact h
          rw [hall]
          simp only [hget]
          cases v with
          | none => exact iff_of_true (Frame.oneLine_bulkStr _) fun _ _ h => nomatch h
          | some v =>
            have hsent := sendInternal_oneLine net host port
              (buildValueFrame env key v (s'.pttl env.now key))
            have hone (P : Value → Store → Prop) :
                (∀ w t, (some v, s') = (some w, t) → P w t) ↔ P v s' := by
              refine ⟨fun h => h v s' rfl, ?_⟩
              rintro h w t ⟨rfl⟩
              exact h
            rw [hone, ← hsent]
            dsimp only
            have hquiet := @sendInternal_oneLine_of_not_isError net s!"{host}:{port}"
              (buildValueFrame env key v (s'.pttl env.now key))
            have hother : Text.OneLine "ERR unexpected response from migration target" :=
              oneLine_ofList (by decide)
            generalize sendInternal net s!"{host}:{port}"
              (buildValueFrame env key v (s'.pttl env.now key)) = resp at hquiet ⊢
            cases resp with
            | error e =>
              rw [Frame.oneLine_error, Frame.oneLine_error]
              exact (Text.oneLine_append (.inl (by decide))).trans (and_iff_right (by decide))
            | simpleString t =>
              refine iff_of_true ?_ (hquiet rfl)
              dsimp only
              split
              · exact Frame.oneLine_ok
              · exact Frame.oneLine_error.mpr hother
            | integer n => exact iff_of_true (Frame.oneLine_error.mpr hother) (hquiet rfl)
            | bulk b => exact iff_of_true (Frame.oneLine_error.mpr hother) (hquiet rfl)
            | array fs => exact iff_of_true (Frame.oneLine_error.mpr hother) (hquiet rfl)

/-! ## Every command -/

theorem oneLine_names (ctx : CommandContext) : ∀ p ∈ commandTable ctx, Text.OneLine p.1 := by
  simp only [commandTable, List.forall_mem_cons]
  repeat' apply And.intro
  all_goals first
    | exact oneLine_ofList (by decide)
    | exact fun _ h => absurd h List.not_mem_nil

theorem dispatch_oneLine (ctx : CommandContext) (env : Env) (name : String) (args : List Frame)
    (s : Store) : (dispatch ctx env name args s).reply.OneLine ↔ Text.OneLine name ∧
      (name = "DEBUG" → ∀ sub, bulkAsStr args 1 = some sub → Text.OneLine sub) := by
  have hrun : (dispatch ctx env name args s).reply.OneLine ↔
      AnswersOneLine (readCommand ctx name args) := by
    unfold dispatch
    cases readCommand ctx name args with
    | error f => exact Iff.rfl
    | ok r =>
      cases r with
      | answer f => exact Iff.rfl
      | _ => exact iff_of_true (Request.run_oneLine fun f h => nomatch h) trivial
  rw [hrun, readCommand]
  cases hlookup : (commandTable ctx).lookup name with
  | none =>
    have hdebug : name ≠ "DEBUG" := by
      rintro rfl
      simp [commandTable, List.lookup_cons] at hlookup
    simp only [hdebug, false_implies, and_true]
    exact Frame.oneLine_error.trans
      (oneLine_between (by decide) (by decide))
  | some handler =>
    obtain ⟨l₁, l₂, hl, -⟩ := List.lookup_eq_some_iff.mp hlookup
    have hmem : (name, handler) ∈ commandTable ctx := by rw [hl]; simp
    rw [and_iff_right (oneLine_names ctx _ hmem)]
    by_cases hdebug : name = "DEBUG"
    · subst hdebug
      obtain rfl : handler = cmdDebug ctx := by
        simpa [commandTable, List.lookup_cons] using hlookup.symm
      rw [answersOneLine_debug]
      exact ⟨fun h _ => h, fun h => h rfl⟩
    · exact iff_of_true (answersOneLine_commandTable ctx _ hmem hdebug args)
        fun h => absurd h hdebug

/-- No write quotes its name. -/
theorem oneLine_of_isWrite {name : String} (h : isWrite name = true) :
    Text.OneLine name ∧ name ≠ "CLUSTER" ∧ name ≠ "DEBUG" ∧ name ≠ "MIGRATE" := by
  have hall : ∀ n ∈ writeCommands,
      Text.OneLine n ∧ n ≠ "CLUSTER" ∧ n ≠ "DEBUG" ∧ n ≠ "MIGRATE" := by decide +kernel
  exact hall name (by simpa [isWrite] using h)

theorem route_single {ctx : CommandContext} (hraft : ctx.raft = none)
    (hcluster : ctx.cluster = none) {args : List Frame} {cmd : Bytes}
    (hcmd : bulkBytes args 0 = some cmd) :
    route ctx (.array (some args)) = routeHere ctx (commandName cmd) args := by
  have hargs : args ≠ [] := by
    rintro rfl
    cases hcmd
  rw [route.eq_2 _ _ hargs]
  simp only [hcmd, routeCommand_single hraft hcluster]

/-- The reply of a single node is on one line if and only if what it quotes is. -/
theorem executeAlone_oneLine {ctx : CommandContext} (hraft : ctx.raft = none)
    (hcluster : ctx.cluster = none) (net : String → Frame → PeerCall) (env : Env) (frame : Frame)
    (s : Store) : (executeAlone ctx net env frame s).reply.OneLine ↔
      QuotesOneLine net env s frame := by
  have hformat : Text.OneLine "ERR invalid command format" := oneLine_ofList (by decide)
  unfold executeAlone
  cases frame with
  | array items =>
    cases items with
    | none => exact iff_of_true (Frame.oneLine_error.mpr hformat) trivial
    | some args =>
      rw [QuotesOneLine]
      cases hcmd : bulkBytes args 0 with
      | none =>
        refine iff_of_true ?_ fun _ h => nomatch h
        cases args with
        | nil => exact Frame.oneLine_error_ofList (by decide)
        | cons f args =>
          simp only [execute, route, hcmd]
          exact Frame.oneLine_error_ofList (by decide)
      | some cmd =>
        simp only [Option.some.injEq, forall_eq']
        rw [execute, route_single hraft hcluster hcmd, routeHere]
        generalize commandName cmd = name
        by_cases hwrite : (isWrite name && !ctx.isReplicaReplay && !ctx.isLeader) = true
        · rw [if_pos hwrite]
          simp only [Bool.and_eq_true] at hwrite
          obtain ⟨hname, hcl, hdb, hmg⟩ := oneLine_of_isWrite hwrite.1.1
          exact iff_of_true (Frame.oneLine_error_ofList (by decide))
            ⟨hname, fun h => (h.elim hcl hdb).elim, fun h => absurd h hmg⟩
        rw [if_neg hwrite]
        by_cases hcl : name = "CLUSTER"
        · rw [if_pos (.inl hcl), hcl]
          refine (cmdClusterDisabled_oneLine ctx.health args).trans ⟨fun h => ?_, fun h => ?_⟩
          · exact ⟨by decide, fun _ => h, fun hmg => absurd hmg (by decide)⟩
          · exact h.2.1 (.inl rfl)
        by_cases hmg : name = "MIGRATE"
        · rw [if_pos (.inr hmg), hmg]
          refine (migrateAway_oneLine net env args s).trans ⟨fun h => ?_, fun h => ?_⟩
          · exact ⟨by decide, fun hor => absurd hor (by decide), fun _ => h⟩
          · exact h.2.2 rfl
        · rw [if_neg (not_or.mpr ⟨hcl, hmg⟩)]
          refine (dispatch_oneLine ctx env name args s).trans ⟨fun h => ?_, fun h => ?_⟩
          · exact ⟨h.1, fun hor => h.2 (hor.resolve_left hcl), fun h => absurd h hmg⟩
          · exact ⟨h.1, fun hdb => h.2.1 (.inr hdb)⟩
  | _ => exact iff_of_true (Frame.oneLine_error.mpr hformat) trivial

/-! ## Requests sent at once -/

/-- A request with the surroundings in which it is served. -/
structure Arrival where
  net : String → Frame → PeerCall
  env : Env
  frame : Frame

/-- The replies to requests that are served one after the other. -/
def repliesTo (ctx : CommandContext) : List Arrival → Store → List Frame
  | [], _ => []
  | a :: as, s =>
    (executeAlone ctx a.net a.env a.frame s).reply ::
      repliesTo ctx as (executeAlone ctx a.net a.env a.frame s).store

/-- No reply quotes a text with a line end. -/
def QuoteOneLine (ctx : CommandContext) : List Arrival → Store → Prop
  | [], _ => True
  | a :: as, s => QuotesOneLine a.net a.env s a.frame ∧
      QuoteOneLine ctx as (executeAlone ctx a.net a.env a.frame s).store

theorem allOneLine_repliesTo {ctx : CommandContext} (hraft : ctx.raft = none)
    (hcluster : ctx.cluster = none) : ∀ (as : List Arrival) (s : Store),
      Frame.AllOneLine (repliesTo ctx as s) ↔ QuoteOneLine ctx as s
  | [], _ => by simp [repliesTo, QuoteOneLine, Frame.AllOneLine]
  | a :: as, s => by
    rw [repliesTo, QuoteOneLine, Frame.AllOneLine, executeAlone_oneLine hraft hcluster,
      allOneLine_repliesTo hraft hcluster as]

open Parser in
/-- On a single node, the bytes of a reply are read as that reply and nothing else if and only
if the texts that it quotes have no line end; and a client that sends requests at once reads
their replies, one frame for each, if and only if this holds for all of them. -/
theorem reply_is_one_frame_iff {ctx : CommandContext} (hraft : ctx.raft = none)
    (hcluster : ctx.cluster = none) :
    (∀ (net : String → Frame → PeerCall) (env : Env) (frame : Frame) (s : Store),
      (executeAlone ctx net env frame s).reply.Fits →
        (parseFrame (writeFrame (executeAlone ctx net env frame s).reply) =
            .ok (some ((executeAlone ctx net env frame s).reply,
              (writeFrame (executeAlone ctx net env frame s).reply).length)) ↔
          QuotesOneLine net env s frame)) ∧
    ∀ (as : List Arrival) (s : Store), (∀ f ∈ repliesTo ctx as s, f.Fits) →
      (drain wireValue (writeFrames (repliesTo ctx as s)) = (repliesTo ctx as s, .incomplete []) ↔
        QuoteOneLine ctx as s) := by
  constructor
  · intro net env frame s hfits
    rw [← executeAlone_oneLine hraft hcluster]
    generalize (executeAlone ctx net env frame s).reply = f at hfits ⊢
    constructor
    · exact fun h => oneLine_of_read ⟨_, _, h⟩
    · intro hline
      have hw := wireValue_writeFrame hfits hline []
      rw [List.append_nil] at hw
      exact parseFrame_eq_some_iff.mpr ⟨_, [], (List.append_nil _).symm, rfl, hw⟩
  · intro as s hfits
    rw [← allOneLine_repliesTo hraft hcluster]
    generalize repliesTo ctx as s = fs at hfits ⊢
    constructor
    · intro h
      refine allOneLine_iff.mpr fun f hf => ?_
      have hmem : f ∈ (drain wireValue (writeFrames fs)).1 := by rwa [h]
      obtain ⟨b, r, hw⟩ := of_mem_drain consumes_wireValue hmem
      exact yieldsOneLine_parseValue _ b f r hw
    · intro hline
      have hdrain := drain_writeFrames (allFit_iff.mpr hfits) hline []
      have hnil : drain wireValue [] = ([], .incomplete []) := drain_incomplete rfl
      rw [List.append_nil, hnil, List.append_nil] at hdrain
      exact hdrain

/-- A single node with an empty store, from which nothing else can be reached. -/
def serveEmpty (words : List String) : Frame :=
  (executeAlone .standalone (fun _ _ => .timedOut) (.plain 0) (.command words) ∅).reply

/-- A client that asks for an unknown command with a line end in its name reads an error with
half the name, and the rest of the line as another frame. -/
theorem unknown_name_ends_line :
    parseFrame (writeFrame (serveEmpty ["X\r\nY"])) ≠
        .ok (some (serveEmpty ["X\r\nY"], (writeFrame (serveEmpty ["X\r\nY"])).length)) ∧
      (Parser.drain wireValue (writeFrame (serveEmpty ["X\r\nY"]))).1 =
        [.error "ERR unknown command `X", .array (some [.bulkStr "Y`"])] := by
  decide +kernel

theorem ping_is_one_frame :
    parseFrame (writeFrame (serveEmpty ["PING"])) =
      .ok (some (serveEmpty ["PING"], (writeFrame (serveEmpty ["PING"])).length)) := by
  have hpong : serveEmpty ["PING"] = .pong := by decide +kernel
  have hfits : (serveEmpty ["PING"]).Fits := by
    rw [hpong, Frame.pong, Frame.Fits]
    all_goals simp
  refine ((@reply_is_one_frame_iff .standalone rfl rfl).1 _ _ _ _ hfits).mpr ?_
  intro cmd hcmd
  have hname : (bulkBytes [Frame.bulkStr "PING"] 0).map commandName = some "PING" := by
    decide +kernel
  have hping : commandName cmd = "PING" := by
    rw [show bulkBytes [Frame.bulkStr "PING"] 0 = some cmd from hcmd] at hname
    exact Option.some.inj hname
  rw [hping]
  exact ⟨by decide, fun h => absurd h (by decide), fun h => absurd h (by decide)⟩

end LoonyRedis
