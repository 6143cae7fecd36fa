import LoonyRedis.Lib.Runs
import LoonyRedis.RaftWire

/-!
# The transport of a Raft call

`send_rpc_to` opens a connection for each call, writes the request and reads until it has a
frame; the connection task of `run_rpc_server` reads until it has one, hands it to the node,
waits for its reply, writes that and closes. The network delivers the bytes of each direction
in pieces of any length, and either side may give up at any moment.

So a call is what the cluster of nodes takes it to be (`transport_sound`) : the callee is handed
the request itself, at most once, and the caller gets the reply of the callee to it, or nothing.
Neither side waits for bytes that do not come : a server that has read all that was sent has
handed the request over, and a caller that has read the whole reply has it.
-/

namespace LoonyRedis

/-- The task of a connection on the server. -/
inductive ServerTask
  | reading (buf : Bytes)
  /-- The request is handed over. -/
  | waiting
  | done
  deriving DecidableEq

/-- The task of the caller, and what `send_rpc_to` returned. -/
inductive ClientTask
  | reading (buf : Bytes)
  | returned (result : Option RaftRpc)
  deriving DecidableEq

/-- One call, as bytes on a connection. -/
structure RpcConn where
  /-- The bytes on their way to the server. -/
  toServer : Bytes
  server : ServerTask
  /-- The bytes on their way to the caller. -/
  toClient : Bytes
  client : ClientTask
  /-- What was handed to the node. -/
  handed : List RaftRpc
  /-- What the node replied. -/
  replied : List RaftRpc
  deriving DecidableEq

/-- The steps of the two tasks, and what ends the call. -/
inductive RpcEvent
  /-- The server reads the next bytes. -/
  | serverRead (n : ℕ)
  /-- The server reads the end of the stream or an error, or the node is gone. -/
  | serverEnd
  | nodeReply (q : RaftRpc)
  | clientRead (n : ℕ)
  /-- The call takes longer than `RPC_TIMEOUT_MS`, or cannot connect, write or read. -/
  | timeout
  deriving DecidableEq

namespace RpcConn

/-- `send_rpc_to` has written the request. -/
def init (r : RaftRpc) : RpcConn where
  toServer := serializeFrame (rpcToFrame r)
  server := .reading []
  toClient := []
  client := .reading []
  handed := []
  replied := []

variable (c : RpcConn)

/-- The branches of `parse_frame` in the loop of the server. -/
def serverParse (buf : Bytes) : ServerTask × List RaftRpc :=
  match parseFrame buf with
  | .ok (some (frame, _)) =>
    match frameToRpc frame with
    | some rpc => (.waiting, [rpc])
    | none => (.done, [])
  | .ok none => (.reading buf, [])
  | .error _ => (.done, [])

/-- The caller goes on reading after a protocol error. -/
def clientParse (buf : Bytes) : ClientTask :=
  match parseFrame buf with
  | .ok (some (frame, _)) => .returned (frameToRpc frame)
  | _ => .reading buf

/-- Bytes are read in pieces of any length, and parsed once a frame is complete. -/
def step : RpcEvent → Option RpcConn
  | .serverRead n =>
    match c.server with
    | .reading buf =>
      if 1 ≤ n ∧ n ≤ c.toServer.length then
        let parsed := serverParse (buf ++ c.toServer.take n)
        some { c with
          toServer := c.toServer.drop n, server := parsed.1, handed := c.handed ++ parsed.2 }
      else none
    | _ => none
  | .serverEnd => some { c with server := .done }
  | .nodeReply q =>
    if c.server = .waiting then
      some { c with
        toClient := c.toClient ++ serializeFrame (rpcToFrame q), server := .done,
        replied := c.replied ++ [q] }
    else none
  | .clientRead n =>
    match c.client with
    | .reading buf =>
      if 1 ≤ n ∧ n ≤ c.toClient.length then
        some { c with
          toClient := c.toClient.drop n, client := clientParse (buf ++ c.toClient.take n) }
      else none
    | .returned _ => none
  | .timeout =>
    match c.client with
    | .reading _ => some { c with client := .returned none }
    | .returned _ => none

/-- The node replies with a message that its types allow. -/
def RepliesFit (_ : RpcConn) : RpcEvent → Prop
  | .nodeReply q => q.Fits
  | _ => True

/-! ## Reading a message in pieces -/

section Pieces

variable {r : RaftRpc} (hr : r.Fits) {buf rest : Bytes}
  (hbytes : buf ++ rest = serializeFrame (rpcToFrame r))
include hr hbytes

/-- A part of a message is no frame. -/
theorem parseFrame_part (hrest : rest ≠ []) : parseFrame buf = .ok none := by
  have hread := wireValue_writeFrame (fits_rpcToFrame hr) (oneLine_rpcToFrame r) []
  rw [List.append_nil, ← serializeFrame, ← hbytes] at hread
  have hpart := stable_wireValue.incomplete_of_append hread hrest (wireValue_ne_tooDeep buf)
  rw [parseFrame, hpart]

theorem parseFrame_whole (hrest : rest = []) :
    ∃ n, parseFrame buf = .ok (some (rpcToFrame r, n)) := by
  rw [hrest, List.append_nil] at hbytes
  rw [hbytes]
  exact ⟨_, parseFrame_serializeFrame (fits_rpcToFrame hr) (oneLine_rpcToFrame r)⟩

theorem serverParse_eq :
    serverParse buf = if rest = [] then (.waiting, [r]) else (.reading buf, []) := by
  split
  · next hrest =>
    obtain ⟨n, hparse⟩ := parseFrame_whole hr hbytes hrest
    simp only [serverParse, hparse, frameToRpc_rpcToFrame hr]
  · next hrest => simp only [serverParse, parseFrame_part hr hbytes hrest]

theorem clientParse_eq :
    clientParse buf = if rest = [] then .returned (some r) else .reading buf := by
  split
  · next hrest =>
    obtain ⟨n, hparse⟩ := parseFrame_whole hr hbytes hrest
    simp only [clientParse, hparse, frameToRpc_rpcToFrame hr]
  · next hrest => simp only [clientParse, parseFrame_part hr hbytes hrest]

end Pieces

theorem bytes_ne_nil {r : RaftRpc} (hr : r.Fits) : serializeFrame (rpcToFrame r) ≠ [] := by
  intro hnil
  have hpart : parseFrame [] = .ok none := rfl
  obtain ⟨n, hparse⟩ := parseFrame_whole hr (List.append_nil _) rfl
  rw [hnil, hpart] at hparse
  cases hparse

/-! ## The invariant -/

/-- The node was handed nothing, or the request; it replied nothing, or once to it. -/
structure Inv (c : RpcConn) (r : RaftRpc) : Prop where
  reading : ∀ buf, c.server = .reading buf →
    buf ++ c.toServer = serializeFrame (rpcToFrame r) ∧ c.toServer ≠ [] ∧ c.handed = []
  waiting : c.server = .waiting → c.handed = [r] ∧ c.replied = []
  handed : c.handed = [] ∧ c.replied = [] ∨
    c.handed = [r] ∧ (c.replied = [] ∨ ∃ q, c.replied = [q])
  answer : ∀ buf, c.client = .reading buf → c.replied = [] ∧ buf = [] ∧ c.toClient = [] ∨
    ∃ q, q.Fits ∧ c.replied = [q] ∧ c.toClient ≠ [] ∧
      buf ++ c.toClient = serializeFrame (rpcToFrame q)
  returned : ∀ q, c.client = .returned (some q) → c.replied = [q]

namespace Inv

variable {r : RaftRpc} {c c' : RpcConn} {e : RpcEvent}

theorem start (hr : r.Fits) : Inv (init r) r where
  reading := by
    intro buf hbuf
    obtain rfl := ServerTask.reading.inj hbuf
    exact ⟨rfl, bytes_ne_nil hr, rfl⟩
  waiting := nofun
  handed := .inl ⟨rfl, rfl⟩
  answer := by
    intro buf hbuf
    obtain rfl := ClientTask.reading.inj hbuf
    exact .inl ⟨rfl, rfl, rfl⟩
  returned := nofun

theorem replied_nil (inv : Inv c r) (h : c.handed = []) : c.replied = [] := by
  rcases inv.handed with ⟨-, hnone⟩ | ⟨hsome, -⟩
  · exact hnone
  · rw [hsome] at h
    cases h

theorem serverRead_step (hr : r.Fits) (inv : Inv c r) {n : ℕ}
    (h : c.step (.serverRead n) = some c') : Inv c' r := by
  simp only [RpcConn.step] at h
  split at h
  · next buf hbuf =>
    split at h
    · obtain rfl := Option.some.inj h
      obtain ⟨hbytes, -, hnone⟩ := inv.reading buf hbuf
      have hreplied := inv.replied_nil hnone
      have hsplit : buf ++ c.toServer.take n ++ c.toServer.drop n =
          serializeFrame (rpcToFrame r) := by
        rw [List.append_assoc, List.take_append_drop, hbytes]
      have hparse := serverParse_eq hr hsplit
      by_cases hrest : c.toServer.drop n = []
      · rw [if_pos hrest] at hparse
        refine ⟨?_, ?_, ?_, inv.answer, inv.returned⟩
        · simp [hparse]
        · exact fun _ => ⟨by simp [hparse, hnone], hreplied⟩
        · exact .inr ⟨by simp [hparse, hnone], .inl hreplied⟩
      · rw [if_neg hrest] at hparse
        refine ⟨?_, ?_, ?_, inv.answer, inv.returned⟩
        · intro buf' hbuf'
          rw [hparse] at hbuf'
          obtain rfl := ServerTask.reading.inj hbuf'
          exact ⟨hsplit, hrest, by simp [hparse, hnone]⟩
        · simp [hparse]
        · exact .inl ⟨by simp [hparse, hnone], hreplied⟩
    · cases h
  · cases h

theorem nodeReply_step (inv : Inv c r) {q : RaftRpc} (hq : q.Fits)
    (h : c.step (.nodeReply q) = some c') : Inv c' r := by
  simp only [RpcConn.step] at h
  split at h
  · next hwait =>
    obtain rfl := Option.some.inj h
    obtain ⟨hhanded, hnone⟩ := inv.waiting hwait
    have hone : c.replied ++ [q] = [q] := by rw [hnone, List.nil_append]
    refine ⟨nofun, nofun, .inr ⟨hhanded, .inr ⟨q, hone⟩⟩, ?_, ?_⟩
    · intro buf hbuf
      rcases inv.answer buf hbuf with ⟨-, rfl, hempty⟩ | ⟨q', -, hsome, -⟩
      · refine .inr ⟨q, hq, hone, ?_, ?_⟩
        · simp only [hempty, List.nil_append]
          exact bytes_ne_nil hq
        · simp only [hempty, List.nil_append]
      · rw [hnone] at hsome
        cases hsome
    · intro q' hq'
      have hsome := inv.returned q' hq'
      rw [hnone] at hsome
      cases hsome
  · cases h

theorem clientRead_step (inv : Inv c r) {n : ℕ} (h : c.step (.clientRead n) = some c') :
    Inv c' r := by
  simp only [RpcConn.step] at h
  split at h
  · next buf hbuf =>
    split at h
    · next hn =>
      obtain rfl := Option.some.inj h
      rcases inv.answer buf hbuf with ⟨-, -, hempty⟩ | ⟨q, hq, hreplied, -, hbytes⟩
      · rw [hempty, List.length_nil] at hn
        omega
      · have hsplit : buf ++ c.toClient.take n ++ c.toClient.drop n =
            serializeFrame (rpcToFrame q) := by
          rw [List.append_assoc, List.take_append_drop, hbytes]
        have hparse := clientParse_eq hq hsplit
        refine ⟨inv.reading, inv.waiting, inv.handed, ?_, ?_⟩
        · intro buf' hbuf'
          simp only [hparse] at hbuf'
          split at hbuf'
          · cases hbuf'
          · next hrest =>
            obtain rfl := ClientTask.reading.inj hbuf'
            exact .inr ⟨q, hq, hreplied, hrest, hsplit⟩
        · intro q' hq'
          simp only [hparse] at hq'
          split at hq'
          · obtain rfl := Option.some.inj (ClientTask.returned.inj hq')
            exact hreplied
          · cases hq'
    · cases h
  · cases h

theorem step (hr : r.Fits) (inv : Inv c r) (hfit : c.RepliesFit e) (h : c.step e = some c') :
    Inv c' r := by
  cases e with
  | serverRead n => exact inv.serverRead_step hr h
  | serverEnd =>
    obtain rfl := Option.some.inj h
    exact ⟨nofun, nofun, inv.handed, inv.answer, inv.returned⟩
  | nodeReply q => exact inv.nodeReply_step hfit h
  | clientRead n => exact inv.clientRead_step h
  | timeout =>
    simp only [RpcConn.step] at h
    split at h
    · obtain rfl := Option.some.inj h
      exact ⟨inv.reading, inv.waiting, inv.handed, nofun, nofun⟩
    · cases h

end Inv

/-- What the two sides may rely on. -/
structure Sound (c : RpcConn) (r : RaftRpc) : Prop where
  /-- The callee is handed the request, at most once. -/
  handed : c.handed = [] ∨ c.handed = [r]
  /-- The caller returns what the callee has replied to it, if anything. -/
  returned : ∀ q, c.client = .returned (some q) → c.handed = [r] ∧ c.replied = [q]
  /-- A server that waits for more has something to read. -/
  serverWaits : ∀ buf, c.server = .reading buf → c.toServer ≠ []
  /-- So has a caller whose callee has replied. -/
  clientWaits : ∀ buf, c.client = .reading buf → c.replied ≠ [] → c.toClient ≠ []

/-- The bound is compared. -/
instance (n : ℕ) : Decidable (IsU64 n) := inferInstanceAs (Decidable (_ < _))

/-- The length is compared. -/
instance (b : Bytes) : Decidable (FitsMemory b) := inferInstanceAs (Decidable (_ ≤ _))

/-- The bounds of the fields are compared. -/
instance : (r : RaftRpc) → Decidable r.Fits
  | .requestVote .. => inferInstanceAs (Decidable (_ ∧ _ ∧ _ ∧ _))
  | .requestVoteResp .. => inferInstanceAs (Decidable (IsU64 _))
  | .appendEntries .. => inferInstanceAs (Decidable (_ ∧ _ ∧ _ ∧ _ ∧ _ ∧ _ ∧ _))
  | .appendEntriesResp .. => inferInstanceAs (Decidable (_ ∧ _))

/-- Only a reply of the node has a condition. -/
instance (c : RpcConn) : (e : RpcEvent) → Decidable (c.RepliesFit e)
  | .nodeReply q => inferInstanceAs (Decidable q.Fits)
  | .serverRead _ | .serverEnd | .clientRead _ | .timeout => isTrue trivial

end RpcConn

/-- However the network cuts the bytes of a call, and wherever it is given up, the callee is
handed the request itself, at most once, and the caller gets the reply of the callee or nothing. -/
theorem transport_sound {r : RaftRpc} (hr : r.Fits) {c : RpcConn}
    (h : Runs.Run RpcConn.step RpcConn.RepliesFit (.init r) c) : c.Sound r := by
  have inv : c.Inv r := h.invariant (I := fun c => c.Inv r)
    (fun _ _ _ inv hfit hstep => inv.step hr hfit hstep) (.start hr)
  refine ⟨?_, ?_, fun buf hbuf => (inv.reading buf hbuf).2.1, ?_⟩
  · exact inv.handed.imp And.left And.left
  · intro q hq
    have hreplied := inv.returned q hq
    rcases inv.handed with ⟨-, hnone⟩ | ⟨hhanded, -⟩
    · rw [hnone] at hreplied
      cases hreplied
    · exact ⟨hhanded, hreplied⟩
  · intro buf hbuf hreplied
    rcases inv.answer buf hbuf with ⟨hnone, -⟩ | ⟨q, -, -, hrest, -⟩
    · exact absurd hnone hreplied
    · exact hrest

/-- A vote that is requested and granted, both messages in two pieces. -/
theorem transport_sound_vote : ∃ c : RpcConn,
    Runs.Run RpcConn.step RpcConn.RepliesFit (.init (.requestVote 1 "a" 0 0)) c ∧
      c.client = .returned (some (.requestVoteResp 1 true)) ∧
      c.handed = [.requestVote 1 "a" 0 0] := by
  have hrun : (Runs.exec RpcConn.step RpcConn.RepliesFit (.init (.requestVote 1 "a" 0 0))
      [.serverRead 7, .serverRead 44, .nodeReply (.requestVoteResp 1 true), .clientRead 1,
        .clientRead 37]).any
      (fun c => c.client = .returned (some (.requestVoteResp 1 true))) = true := by
    decide +kernel
  obtain ⟨c, hc, hp⟩ := Runs.exists_run_of_exec hrun
  have hreturned := of_decide_eq_true hp
  exact ⟨c, hc, hreturned, ((transport_sound (by decide) hc).returned _ hreturned).1⟩

end LoonyRedis
