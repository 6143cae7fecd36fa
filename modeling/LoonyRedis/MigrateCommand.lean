import LoonyRedis.FailedMigration
import LoonyRedis.ReadOnly
import LoonyRedis.Replies

/-!
# MIGRATE between two servers

`MIGRATE` sends the command that recreates a key to the target, reads one response, and removes
its own key if the response is `OK`. Every other response is an error to the client.

`SET` earns `OK`, but `RPUSH`, `HSET`, `SADD` and `ZADD` earn an integer. So a string moves, and
a collection is copied to the target while the client is told that the migration failed.
`migrate_all_or_nothing_iff` says that the two servers are changed together or not at all exactly
if the value is a string, or the target still stores an expired entry under the key which the
elements of the value leave as it is.
-/

namespace LoonyRedis

open Std Store

/-! ## The target -/

/-- A single node : without Raft and cluster, and not a replica. -/
structure CommandContext.Alone (ctx : CommandContext) : Prop where
  raft : ctx.raft = none
  cluster : ctx.cluster = none
  leader : ctx.isLeader = true

theorem CommandContext.Alone.servesKey {ctx : CommandContext} (h : ctx.Alone) (key : String) :
    ctx.ServesKey key := by
  refine .inr ⟨h.raft, h.leader, fun cfg hcfg => ?_⟩
  rw [h.cluster] at hcfg
  cases hcfg

/-- The response that `send_internal` reads in what came back from `addr`. -/
def readResponse (addr : String) (b : Bytes) : Frame :=
  match parseFrame b with
  | .ok (some (resp, _)) => resp
  | _ => .error s!"ERR internal RPC to {addr} timed out"

/-- A call of a single node : it parses the bytes of the command, executes it and writes its
reply. -/
def callAlone (ctx : CommandContext) (net : String → Frame → PeerCall) (env : Env) : Rpc :=
  fun addr frame w =>
    match w addr with
    | none => (.error s!"ERR internal RPC to {addr} failed: connection refused", w)
    | some n =>
      match parseFrame (serializeFrame frame) with
      | .ok (some (request, _)) =>
        let o := executeAlone ctx net env request n.store
        (readResponse addr (serializeFrame o.reply), w.setStore addr o.store)
      | .ok none => (.error s!"ERR internal RPC to {addr} timed out", w)
      | .error e => (readResponse addr (serializeFrame (.error s!"ERR protocol error: {e}")), w)

/-! ## The property -/

/-- The store of a node. -/
def World.storeAt (w : World) (a : String) : Store := (w a).elim ∅ ClusterNode.store

/-- A migration of `key` with the contents `c` that took the servers from `w` to `w'` and was
answered with `reply` : it moved or copied the key, or it changed neither server. -/
structure AllOrNothing (me target key : String) (c : Content) (copy : Bool) (w : World)
    (reply : Frame) (w' : World) : Prop where
  moved : reply = .ok → (∃ e, (w'.storeAt target)[key]? = some e ∧ e.value.content = c ∧
      e.expiresAt = none) ∧ (key ∈ w'.storeAt me ↔ copy = true)
  refused : ∀ msg, reply = .error msg → w'.storeAt me = w.storeAt me ∧
      w'.storeAt target = w.storeAt target

/-- Whether a value is a string. -/
def Value.isString : Value → Bool
  | .string _ => true
  | _ => false

/-- Adding the elements of `v` to `old` leaves it as it is : `old` is of another type, or it has
these elements. -/
def Value.KeptUnder (env : Env) (key : String) (v old : Value) : Prop :=
  ∃ x, snapshotEntry env key v = some x ∧ x.valueOver (some old) = old

/-! ## Responses -/

/-- An integer or an error is not read back as `OK`, whatever it is read back as. -/
theorem readResponse_ne_ok {reply : Frame}
    (h : (∃ n, reply = .integer n) ∨ ∃ msg, reply = .error msg) (addr : String) :
    readResponse addr (serializeFrame reply) ≠ .ok := by
  unfold readResponse
  split
  · next resp consumed hparse =>
    obtain ⟨c, r, hbytes, -, hvalue⟩ := parseFrame_eq_some_iff.mp hparse
    rcases h with ⟨n, rfl⟩ | ⟨msg, rfl⟩
    · rw [serializeFrame, writeFrame] at hbytes hvalue
      have htag : parseTagged (parseValue (decimal n ++ crlf).length.succ) 0x3A =
          some parseInteger := rfl
      rw [wireValue, List.length_cons, parseValue_cons_some htag] at hvalue
      obtain ⟨m, r', -, hpure⟩ := Parser.bind_eq_ok.mp hvalue
      obtain ⟨rfl, -⟩ := Prod.mk.inj (Except.ok.inj hpure)
      simp [Frame.ok]
    · rw [serializeFrame, writeFrame] at hbytes hvalue
      have htag : parseTagged (parseValue (Utf8.toBytes msg ++ crlf).length.succ) 0x2D =
          some parseError := rfl
      rw [wireValue, List.length_cons, parseValue_cons_some htag] at hvalue
      obtain ⟨m, r', -, hpure⟩ := Parser.bind_eq_ok.mp hvalue
      obtain ⟨rfl, -⟩ := Prod.mk.inj (Except.ok.inj hpure)
      simp [Frame.ok]
  · simp [Frame.ok]

theorem readResponse_ok (addr : String) : readResponse addr (serializeFrame .ok) = .ok := by
  have hfit : Frame.ok.Fits := by simp [Frame.ok, Frame.Fits]
  have hline : Frame.ok.OneLine := by
    simp only [Frame.ok, Frame.OneLine]
    decide
  simp only [readResponse, parseFrame_serializeFrame hfit hline]

/-! ## The command that is sent -/

section Sent

variable {ctx : CommandContext} {net : String → Frame → PeerCall} {env env' : Env} {key : String}
  {v : Value} {x : SnapshotEntry}

/-- What the target answers. -/
theorem reply_of_collection (hx : snapshotEntry env key v = some x) (hv : v.isString = false)
    (s : Store) : (∃ n, (x.request.run ctx env' s).reply = .integer n) ∨
      ∃ msg, (x.request.run ctx env' s).reply = .error msg := by
  have hof {β : Type} (r : Except String β × Store) (fmt : β → ℤ) (log : β → List Record) :
      (∃ n, (Outcome.of r (fun b => .integer (fmt b)) log).reply = .integer n) ∨
        ∃ msg, (Outcome.of r (fun b => .integer (fmt b)) log).reply = .error msg := by
    unfold Outcome.of
    cases r.1 with
    | ok b => exact .inl ⟨fmt b, rfl⟩
    | error e => exact .inr ⟨e, rfl⟩
  cases x with
  | string k b =>
    cases v <;> simp [snapshotEntry, Value.isString] at hx hv
  | list k items => exact hof _ (fun n : ℕ => (n : ℤ)) _
  | hash k fields => exact hof _ (fun n : ℕ => (n : ℤ)) _
  | set k members => exact hof _ (fun n : ℕ => (n : ℤ)) _
  | zset k members => exact hof _ (fun r : ℕ × ℕ => ((if false then r.2 else r.1 : ℕ) : ℤ)) _

theorem callAlone_value (halone : ctx.Alone) (hx : snapshotEntry env key v = some x)
    (hfit : (buildValueFrame env key v (-1)).Fits) {w : World} {addr : String} {n : ClusterNode}
    (hn : w addr = some n) :
    callAlone ctx net env' addr (buildValueFrame env key v (-1)) w =
      (readResponse addr (serializeFrame (x.request.run ctx env' n.store).reply),
        w.setStore addr (n.store.insert key
          ⟨x.valueOver (n.store[key]?.map Entry.value), x.expiryOver n.store[key]?⟩)) := by
  have hempty : v.isEmpty = false := by
    rw [Bool.eq_false_iff, Ne, ← @snapshotEntry_eq_none env key, hx]
    simp
  obtain ⟨x', hx', hresp⟩ := @buildValueFrame_eq env key v hempty
  obtain rfl : x' = x := Option.some.inj (hx'.symm.trans hx)
  obtain rfl := SnapshotEntry.key_of_snapshotEntry hx
  rw [hresp] at hfit ⊢
  have hline : (snapshotEntryToResp x').OneLine := by
    rw [snapshotEntryToResp_eq_bulks]
    exact oneLine_record _
  have hrun : executeAlone ctx net env' (snapshotEntryToResp x') n.store =
      x'.request.run ctx env' n.store :=
    Deployment.execute_of_requestOf (Deployment.requestOf_entry (halone.servesKey _)
      (SnapshotEntry.elements_ne_nil hx)) n.store
  simp only [callAlone, hn, parseFrame_serializeFrame hfit hline, hrun,
    SnapshotEntry.run_request_over (SnapshotEntry.elements_ne_nil hx)]

end Sent

/-! ## The handler -/

/-- What the client is told of a response that is not `OK`. -/
def refusal : Frame → String
  | .error e => s!"ERR target: {e}"
  | _ => "ERR unexpected response from migration target"

theorem cmdMigrate_live {rpc : Rpc} {env : Env} {me host key : String} {port : ℕ}
    {args : List Frame} {s : Store} {w : World} {v : Value} (hlen : 6 ≤ args.length)
    (hhost : bulkAsStr args 1 = some host)
    (hport : (bulkAsStr args 2).bind (fun p => Text.parseU16 p.toList) = some port)
    (hkey : bulkAsStr args 3 = some key) (hlive : s[key]? = some ⟨v, none⟩) :
    cmdMigrate rpc env me args s w =
      if (rpc s!"{host}:{port}" (buildValueFrame env key v (-1)) w).1 = .ok then
        (.ok, if hasCopy args then (rpc s!"{host}:{port}" (buildValueFrame env key v (-1)) w).2
          else (rpc s!"{host}:{port}" (buildValueFrame env key v (-1)) w).2.setStore me
            (((rpc s!"{host}:{port}" (buildValueFrame env key v (-1)) w).2.storeAt me).erase key))
      else (.error (refusal (rpc s!"{host}:{port}" (buildValueFrame env key v (-1)) w).1),
        (rpc s!"{host}:{port}" (buildValueFrame env key v (-1)) w).2) := by
  have hget : s.get env.now key = (some v, s) := by
    simp [Store.get, hlive, Entry.isExpired]
  have hpttl : s.pttl env.now key = -1 := by
    simp [pttl, hlive, Entry.isExpired]
  unfold cmdMigrate
  rw [if_neg (by omega), hhost, hport, hkey]
  simp only [hget, hpttl]
  generalize rpc s!"{host}:{port}" (buildValueFrame env key v (-1)) w = r
  obtain ⟨resp, w'⟩ := r
  have hcopy : ((args.drop 6).any fun f => f.payload.any fun b =>
      decide (b.map Text.toAsciiUppercase = Utf8.toBytes "COPY")) = hasCopy args := rfl
  simp only [hcopy]
  cases resp with
  | simpleString t =>
    by_cases ht : t = "OK"
    · simp only [ht]
      rfl
    · have hok : Frame.simpleString t ≠ .ok := fun h => ht (Frame.simpleString.inj h)
      simp only [if_neg ht, if_neg hok, refusal]
  | error | integer | bulk | array => simp [Frame.ok, refusal]

/-! ## Both servers -/

/-- A `MIGRATE` of a live key without expiry, to a node that does not hold the key. The
surroundings are those of the source and of the target. -/
structure MigrateCall (env env' : Env) where
  args : List Frame
  six : 6 ≤ args.length
  host : String
  host_eq : bulkAsStr args 1 = some host
  port : ℕ
  port_eq : (bulkAsStr args 2).bind (fun p => Text.parseU16 p.toList) = some port
  key : String
  key_eq : bulkAsStr args 3 = some key
  me : String
  w : World
  source : ClusterNode
  at_me : w me = some source
  target : ClusterNode
  at_target : w s!"{host}:{port}" = some target
  value : Value
  live : source.store[key]? = some ⟨value, none⟩
  full : value.isEmpty = false
  missing : (target.store.get env'.now key).1 = none
  fits : (buildValueFrame env key value (-1)).Fits

namespace MigrateCall

variable {env env' : Env} (c : MigrateCall env env') {ctx : CommandContext}
  {net : String → Frame → PeerCall}

/-- The address that the client gives. -/
def addr : String := s!"{c.host}:{c.port}"

/-- The reply to the client, and both servers afterwards. -/
def run (ctx : CommandContext) (net : String → Frame → PeerCall) : Frame × World :=
  cmdMigrate (callAlone ctx net env') env c.me c.args c.source.store c.w

theorem me_ne_addr : c.me ≠ c.addr := by
  intro heq
  have hsame : c.source = c.target :=
    Option.some.inj (c.at_me.symm.trans ((congrArg c.w heq).trans c.at_target))
  have hmissing := c.missing
  rw [← hsame] at hmissing
  simp [Store.get, c.live, Entry.isExpired] at hmissing

/-- The servers after the target has executed the command of `x`. -/
def sent (x : SnapshotEntry) : World :=
  c.w.setStore c.addr (c.target.store.insert c.key
    ⟨x.valueOver (c.target.store[c.key]?.map Entry.value), x.expiryOver c.target.store[c.key]?⟩)

theorem storeAt_sent_me (x : SnapshotEntry) : (c.sent x).storeAt c.me = c.source.store := by
  rw [World.storeAt, sent, World.setStore_of_ne c.me_ne_addr, c.at_me]
  rfl

theorem storeAt_sent_addr (x : SnapshotEntry) : (c.sent x).storeAt c.addr =
    c.target.store.insert c.key ⟨x.valueOver (c.target.store[c.key]?.map Entry.value),
      x.expiryOver c.target.store[c.key]?⟩ := by
  have hat : c.w c.addr = some c.target := c.at_target
  rw [World.storeAt, sent, World.setStore_apply hat]
  rfl

/-- A string arrives, and leaves its source unless it is copied. -/
theorem run_string (halone : ctx.Alone) {b : Bytes} (hv : c.value = .string b) :
    c.run ctx net = (.ok, if hasCopy c.args then c.sent (.string c.key b)
      else (c.sent (.string c.key b)).setStore c.me (c.source.store.erase c.key)) := by
  have hx : snapshotEntry env c.key c.value = some (.string c.key b) := by
    rw [hv]
    rfl
  have hcall : callAlone ctx net env' c.addr (buildValueFrame env c.key c.value (-1)) c.w =
      (.ok, c.sent (.string c.key b)) := by
    rw [addr, callAlone_value halone hx c.fits c.at_target]
    exact congrArg (Prod.mk · _) (readResponse_ok c.addr)
  rw [run, cmdMigrate_live c.six c.host_eq c.port_eq c.key_eq c.live]
  rw [addr] at hcall
  rw [hcall, if_pos rfl, c.storeAt_sent_me]

/-- A collection arrives too, but the client is told that it did not. -/
theorem run_collection (halone : ctx.Alone) (hv : c.value.isString = false) {x : SnapshotEntry}
    (hx : snapshotEntry env c.key c.value = some x) :
    ∃ msg, c.run ctx net = (.error msg, c.sent x) := by
  have hcall : callAlone ctx net env' c.addr (buildValueFrame env c.key c.value (-1)) c.w =
      (readResponse c.addr (serializeFrame (x.request.run ctx env' c.target.store).reply),
        c.sent x) := callAlone_value halone hx c.fits c.at_target
  have hne : readResponse c.addr (serializeFrame (x.request.run ctx env' c.target.store).reply) ≠
      .ok := readResponse_ne_ok (reply_of_collection hx hv c.target.store) c.addr
  rw [run, cmdMigrate_live c.six c.host_eq c.port_eq c.key_eq c.live]
  rw [addr] at hcall hne
  rw [hcall, if_neg hne]
  exact ⟨_, rfl⟩

/-- Without its string, the command leaves the target as it was only if the elements change
nothing in an entry that is still there. -/
theorem storeAt_sent_eq_iff (hv : c.value.isString = false) {x : SnapshotEntry}
    (hx : snapshotEntry env c.key c.value = some x) :
    (c.sent x).storeAt c.addr = c.target.store ↔
      ∃ e, c.target.store[c.key]? = some e ∧ c.value.KeptUnder env c.key e.value := by
  have hkeeps (e : Entry) : x.expiryOver (some e) = e.expiresAt := by
    cases x with
    | string k b => cases hval : c.value <;> simp [hval, snapshotEntry, Value.isString] at hx hv
    | list | hash | set | zset => rfl
  rw [c.storeAt_sent_addr]
  constructor
  · intro heq
    have hkey := congrArg (fun s : Store => s[c.key]?) heq
    simp only [FinMap.getElem?_insert_self] at hkey
    cases he : c.target.store[c.key]? with
    | none =>
      rw [he] at hkey
      cases hkey
    | some e =>
      rw [he] at hkey
      exact ⟨e, rfl, x, hx, congrArg Entry.value (Option.some.inj hkey)⟩
  · rintro ⟨e, he, x', hx', hkept⟩
    obtain rfl : x = x' := Option.some.inj (hx.symm.trans hx')
    rw [he, Option.map_some, hkept, hkeeps]
    exact FinMap.insert_of_getElem? he

/-- `MIGRATE` is all or nothing for strings, and for a collection only if the target keeps an
expired entry under the key that the collection does not change. -/
theorem migrate_all_or_nothing_iff (halone : ctx.Alone) :
    AllOrNothing c.me c.addr c.key c.value.content (hasCopy c.args) c.w (c.run ctx net).1
        (c.run ctx net).2 ↔
      c.value.isString = true ∨
        ∃ e, c.target.store[c.key]? = some e ∧ c.value.KeptUnder env c.key e.value := by
  cases hv : c.value.isString with
  | true =>
    refine iff_of_true ?_ (.inl rfl)
    obtain ⟨b, hb⟩ : ∃ b, c.value = .string b := by
      cases hval : c.value <;> simp_all [Value.isString]
    rw [c.run_string halone hb]
    have hat : ((c.sent (.string c.key b)).storeAt c.addr)[c.key]? = some ⟨.string b, none⟩ := by
      rw [c.storeAt_sent_addr]
      exact FinMap.getElem?_insert_self
    have hmem : c.key ∈ c.source.store := by
      rw [ExtTreeMap.mem_iff_isSome_getElem?, c.live]
      rfl
    refine ⟨fun _ => ?_, fun msg hmsg => by cases hmsg⟩
    cases hasCopy c.args with
    | true => exact ⟨⟨_, hat, by rw [hb], rfl⟩, by simpa [c.storeAt_sent_me] using hmem⟩
    | false =>
      have hother : (((c.sent (.string c.key b)).setStore c.me
          (c.source.store.erase c.key)).storeAt c.addr) =
          (c.sent (.string c.key b)).storeAt c.addr := by
        rw [World.storeAt, World.setStore_of_ne c.me_ne_addr.symm]
        rfl
      have hme : (((c.sent (.string c.key b)).setStore c.me
          (c.source.store.erase c.key)).storeAt c.me) = c.source.store.erase c.key := by
        have hnode : c.sent (.string c.key b) c.me = some c.source := by
          rw [sent, World.setStore_of_ne c.me_ne_addr, c.at_me]
        rw [World.storeAt, World.setStore_apply hnode]
        rfl
      simp only [Bool.false_eq_true, if_false, iff_false, hother, hme]
      exact ⟨⟨_, hat, by rw [hb], rfl⟩, by simp⟩
  | false =>
    obtain ⟨x, hx, -⟩ := @buildValueFrame_eq env c.key c.value c.full
    obtain ⟨msg, hrun⟩ : ∃ msg, c.run ctx net = (.error msg, c.sent x) :=
      c.run_collection halone hv hx
    have htarget : c.w.storeAt c.addr = c.target.store := by
      rw [World.storeAt, show c.w c.addr = some c.target from c.at_target]
      rfl
    have hsource : c.w.storeAt c.me = c.source.store := by
      rw [World.storeAt, c.at_me]
      rfl
    rw [hrun, ← c.storeAt_sent_eq_iff hv hx]
    simp only [Bool.false_eq_true, false_or]
    constructor
    · intro h
      rw [(h.refused msg rfl).2, htarget]
    · intro h
      refine ⟨fun hok => ?_, fun msg' _ => ?_⟩
      · cases hok
      · exact ⟨(c.storeAt_sent_me x).trans hsource.symm, h.trans htarget.symm⟩

end MigrateCall

section Example

/-- A source that holds `v` under the key `k` and an empty target, and the request of a client to
move the key. -/
def oneKey (v : Value) (hv : v.isEmpty = false)
    (hfit : (buildValueFrame (.plain 0) "k" v (-1)).Fits) : MigrateCall (.plain 0) (.plain 0) where
  args := ["MIGRATE", "h", "1", "k", "0", "0"].map Frame.bulkStr
  six := by decide
  host := "h"
  host_eq := by decide
  port := 1
  port_eq := by decide
  key := "k"
  key_eq := by decide
  me := "a"
  w := fun a => some ⟨if a = "a" then (∅ : Store).insert "k" ⟨v, none⟩ else ∅, ⟨[], 0⟩⟩
  source := ⟨(∅ : Store).insert "k" ⟨v, none⟩, ⟨[], 0⟩⟩
  at_me := rfl
  target := ⟨∅, ⟨[], 0⟩⟩
  at_target := rfl
  value := v
  live := FinMap.getElem?_insert_self
  full := hv
  missing := rfl
  fits := hfit

/-- The string `b`. -/
def stringB : Value := .string (Utf8.toBytes "b")

/-- The list with the element `b`. -/
def listB : Value := .list (RedisList.new.pushBack (Utf8.toBytes "b"))

theorem fits_stringB : (buildValueFrame (.plain 0) "k" stringB (-1)).Fits :=
  @fits_of_short [Utf8.toBytes "SET", Utf8.toBytes "k", Utf8.toBytes "b"] (by decide) (by decide)

theorem fits_listB : (buildValueFrame (.plain 0) "k" listB (-1)).Fits :=
  @fits_of_short [Utf8.toBytes "RPUSH", Utf8.toBytes "k", Utf8.toBytes "b"] (by decide) (by decide)

/-- The string moves. -/
theorem migrate_all_or_nothing_string :
    AllOrNothing "a" "h:1" "k" stringB.content false (oneKey stringB rfl fits_stringB).w
      ((oneKey stringB rfl fits_stringB).run .standalone fun _ _ => .timedOut).1
      ((oneKey stringB rfl fits_stringB).run .standalone fun _ _ => .timedOut).2 :=
  ((oneKey stringB rfl fits_stringB).migrate_all_or_nothing_iff
    ⟨rfl, rfl, rfl⟩).mpr (.inl rfl)

/-- The list arrives at the target, stays at the source, and the client is told that the
migration failed. -/
theorem list_arrives_with_error :
    ((oneKey listB rfl fits_listB).run .standalone fun _ _ => .timedOut).1 =
        .error "ERR unexpected response from migration target" ∧
      ¬ AllOrNothing "a" "h:1" "k" listB.content false (oneKey listB rfl fits_listB).w
        ((oneKey listB rfl fits_listB).run .standalone fun _ _ => .timedOut).1
        ((oneKey listB rfl fits_listB).run .standalone fun _ _ => .timedOut).2 := by
  have hreply : ((oneKey listB rfl fits_listB).run .standalone fun _ _ => .timedOut).1 =
      .error "ERR unexpected response from migration target" := by
    decide
  have hcount : ((((oneKey listB rfl fits_listB).run .standalone fun _ _ => .timedOut).2.storeAt
      "h:1").contains "k") = true := by
    decide
  have hempty : ((oneKey listB rfl fits_listB).w.storeAt "h:1").contains "k" = false := by
    decide
  refine ⟨hreply, fun h => ?_⟩
  rw [(h.refused _ hreply).2, hempty] at hcount
  cases hcount

end Example

end LoonyRedis
