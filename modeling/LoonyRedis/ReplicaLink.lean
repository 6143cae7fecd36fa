import LoonyRedis.Connection
import LoonyRedis.FullSync
import LoonyRedis.Transfer

/-!
# The connection of a replica

A follower connects to its leader, asks for the stream with `SYNC` and executes the frames that it
parses out of what it reads, in pieces of any length. The leader executes the writes of its
clients, each of which broadcasts its frame some time later. For a replica it subscribes to this
write stream, sends a snapshot, and forwards what it receives. The write stream keeps the last
`BROADCAST_CAPACITY` messages : a subscription that falls further behind has lagged, and the leader
ends the connection. The follower then waits for a time that doubles, and connects again.

So a connection never has a gap (`replica_stream_exact`) : what the follower has executed of it is
the beginning of the snapshot and of all that was broadcast since the subscription, in this order,
each once; and if nothing is on the way, it is all of that. If each write is broadcast before the
next one, the first connection of an empty follower does what full-sync is taken to do, with whole
frames and a channel without bounds (`replica_link_refines`).
-/

namespace LoonyRedis

open Std Store Parser

/-! ## The two tasks -/

/-- The frames that a subscription can be behind. -/
def broadcastCapacity : ℕ := 4096

/-- What a receiver of the write stream gets. -/
inductive Received
  | message (frame : Frame)
  /-- Nothing was broadcast since. -/
  | empty
  | lagged (missed : ℕ)

/-- The receiver has got the messages before `next`. -/
def recv (log : List Frame) (next : ℕ) : Received :=
  match log[next]? with
  | none => .empty
  | some frame =>
    if log.length - next ≤ broadcastCapacity then .message frame
    else .lagged (log.length - broadcastCapacity - next)

/-- What the follower sends first. -/
def syncBytes : Bytes := Utf8.toBytes "*1\r\n$4\r\nSYNC\r\n"

/-- The task of a connection on the leader. -/
inductive LeaderTask
  /-- `handle_connection` waits for a command. -/
  | accepting (buf : Bytes)
  | subscribed
  /-- The frames of the snapshot that are to be sent. -/
  | sending (rest : List Frame)
  | streaming
  | closed

/-- Where the task of the follower stands. -/
inductive FollowerTask
  | connecting
  | reading (buf : Bytes)
  /-- It waits for the time `backoff`. -/
  | sleeping

/-- What a connection was for, and what came of it on the follower. -/
structure Session where
  /-- The number of messages that were broadcast before the subscription. -/
  start : ℕ
  snapshot : List Frame
  executed : List Frame

/-- The leader, the follower and the connection between them. -/
structure ReplicaLink where
  leader : Store
  /-- The writes that have changed the store of the leader and are not broadcast yet. -/
  pending : List Frame
  /-- All that was broadcast. -/
  log : List Frame
  task : LeaderTask
  /-- The position of the subscription. -/
  next : ℕ
  toLeader : Bytes
  toFollower : Bytes
  follower : FollowerTask
  replica : Store
  /-- The time to wait, in milliseconds, and how often the follower has waited. -/
  backoff : ℕ
  attempts : ℕ
  /-- The last connection, and those before it. -/
  session : Session
  past : List Session
  /-- The frames that were sent and not executed yet. -/
  inflight : List Frame

/-- The steps of the clients, of both tasks and of the connection. -/
inductive LinkEvent
  /-- A client's write changes the store of the leader. -/
  | write (env : Env) (frame : Frame)
  /-- The task of one of the clients broadcasts its write. -/
  | broadcast (i : ℕ)
  | connect
  | refuse
  /-- The leader reads the next bytes. -/
  | leaderRead (n : ℕ)
  | snapshot (env : Env)
  /-- The leader sends the next frame of the snapshot. -/
  | send
  | recv
  /-- An error ends the task of the leader. -/
  | leaderEnd
  | followerRead (n : ℕ) (envAt : ℕ → Env)
  /-- The follower reads the end of the stream or an error. -/
  | followerEnd
  /-- The time to wait is over. -/
  | wake

namespace ReplicaLink

/-- A leader, and a follower that starts. -/
def start (s t : Store) : ReplicaLink where
  leader := s
  pending := []
  log := []
  task := .closed
  next := 0
  toLeader := []
  toFollower := []
  follower := .connecting
  replica := t
  backoff := 500
  attempts := 0
  session := ⟨0, [], []⟩
  past := []
  inflight := []

variable (d : Deployment) (c : ReplicaLink)

/-- The frames of a snapshot of the leader. -/
def snapshotFrames (env : Env) : List Frame := (c.leader.snapshot env).map snapshotEntryToResp

/-- What an event does, if it can happen. -/
def step : LinkEvent → Option ReplicaLink
  | .write env frame =>
    let o := d.onLeader env frame c.leader
    if broadcasts d.leader frame o.reply = true then
      some { c with leader := o.store, pending := c.pending ++ [frame] }
    else none
  | .broadcast i =>
    match c.pending[i]? with
    | none => none
    | some frame => some { c with pending := c.pending.eraseIdx i, log := c.log ++ [frame] }
  | .connect =>
    match c.follower with
    | .connecting => some { c with
        task := .accepting [], next := c.log.length, toLeader := syncBytes, toFollower := [],
        follower := .reading [], session := ⟨c.log.length, [], []⟩, inflight := [] }
    | _ => none
  | .refuse =>
    match c.follower with
    | .connecting => some { c with follower := .sleeping }
    | _ => none
  | .leaderRead n =>
    match c.task with
    | .accepting buf =>
      if 1 ≤ n ∧ n ≤ c.toLeader.length then
        match parseFrame (buf ++ c.toLeader.take n) with
        | .ok (some (frame, _)) =>
          -- A follower sends nothing but `SYNC`, so that no other command is executed here.
          if isSyncCommand frame then some { c with
            task := .subscribed, next := c.log.length, toLeader := c.toLeader.drop n,
            session := ⟨c.log.length, [], []⟩ }
          else none
        | .ok none => some { c with
            task := .accepting (buf ++ c.toLeader.take n), toLeader := c.toLeader.drop n }
        | .error _ => some { c with task := .accepting [], toLeader := c.toLeader.drop n }
      else none
    | _ => none
  | .snapshot env =>
    match c.task with
    | .subscribed => some { c with
        task := .sending (c.snapshotFrames env)
        session := { c.session with snapshot := c.snapshotFrames env } }
    | _ => none
  | .send =>
    match c.task with
    | .sending (frame :: rest) => some { c with
        task := .sending rest, toFollower := c.toFollower ++ serializeFrame frame,
        inflight := c.inflight ++ [frame] }
    | .sending [] => some { c with task := .streaming }
    | _ => none
  | .recv =>
    match c.task with
    | .streaming =>
      match LoonyRedis.recv c.log c.next with
      | .message frame => some { c with
          next := c.next + 1, toFollower := c.toFollower ++ serializeFrame frame,
          inflight := c.inflight ++ [frame] }
      | .lagged _ => some { c with task := .closed }
      | .empty => none
    | _ => none
  | .leaderEnd => some { c with task := .closed }
  | .followerRead n envAt =>
    match c.follower with
    | .reading buf =>
      if 1 ≤ n ∧ n ≤ c.toFollower.length then
        let b := buf ++ c.toFollower.take n
        let r := replicate d.replica Deployment.nowhere envAt b c.replica
        let frames := (drain wireValue b).1
        some { c with
          follower := .reading r.2, toFollower := c.toFollower.drop n, replica := r.1,
          session := { c.session with executed := c.session.executed ++ frames },
          inflight := c.inflight.drop frames.length }
      else none
    | _ => none
  | .followerEnd =>
    match c.follower with
    | .reading _ => some { c with
        task := .closed, toLeader := [], toFollower := [], follower := .sleeping,
        past := c.past ++ [c.session], inflight := [] }
    | _ => none
  | .wake =>
    match c.follower with
    | .sleeping => some { c with
        follower := .connecting, attempts := c.attempts + 1,
        backoff := min (c.backoff * 2) 30000 }
    | _ => none

/-- The frames fit in memory, and those of clients were read from a connection. -/
def SendsFit (c : ReplicaLink) : LinkEvent → Prop
  | .write _ frame => frame.Fits ∧ frame.OneLine
  | .snapshot env => ∀ frame ∈ c.snapshotFrames env, frame.Fits
  | _ => True

/-- All that was broadcast is sent, read and executed. -/
structure Settled (c : ReplicaLink) : Prop where
  task : c.task = .streaming
  pending : c.pending = []
  received : c.next = c.log.length
  arrived : c.toFollower = []
  follower : ∃ buf, c.follower = .reading buf

end ReplicaLink

/-! ## Reading -/

/-- A received frame is the one at the place of the subscription. -/
theorem recv_message {log : List Frame} {next : ℕ} {frame : Frame}
    (h : recv log next = .message frame) : log[next]? = some frame := by
  unfold recv at h
  split at h
  · cases h
  · next hget =>
    split at h
    · rw [hget, Received.message.inj h]
    · cases h

/-- The follower executes the frames that are in its buffer whole. -/
theorem replicateLoop_part {ctx : CommandContext} {elsewhere : Route → Store → Outcome}
    {envAt : ℕ → Env} {b r : Bytes} {fs : List Frame} : ∀ {fuel i : ℕ} {s : Store},
      b.length < fuel → drain wireValue b = (fs, .incomplete r) →
        replicateLoop ctx elsewhere envAt fuel i b s =
          (applyLog ctx elsewhere envAt i fs s, r) := by
  induction b using drain_induction consumes_wireValue generalizing fs with
  | ok b f r' hok ih =>
    rintro (_ | fuel) i s hlt hdrain
    · omega
    obtain ⟨c, rfl, hc⟩ := consumes_wireValue _ _ _ hok
    have hparse : parseFrame (c ++ r') = .ok (some (f, c.length)) :=
      parseFrame_eq_some_iff.mpr ⟨c, r', rfl, rfl, hok⟩
    rw [drain_ok consumes_wireValue hok] at hdrain
    obtain ⟨rfl, hrest⟩ := Prod.mk.inj hdrain
    rw [List.length_append] at hlt
    simp only [replicateLoop, hparse, List.drop_left, applyLog]
    exact ih (by omega) (Prod.ext rfl hrest)
  | stop b e herr =>
    rintro (_ | fuel) i s hlt hdrain
    · omega
    cases e with
    | incomplete =>
      rw [drain_incomplete herr] at hdrain
      obtain ⟨rfl, hrest⟩ := Prod.mk.inj hdrain
      obtain rfl := Rest.incomplete.inj hrest
      simp only [replicateLoop, parseFrame, herr, applyLog]
    | invalid e =>
      rw [drain_invalid herr] at hdrain
      cases hdrain
    | tooDeep => exact absurd herr (wireValue_ne_tooDeep b)

/-- From a part of the frames that were sent, those that have arrived are read. -/
theorem drain_sent {fs : List Frame} (hfs : ∀ f ∈ fs, f.Fits ∧ f.OneLine) {b x : Bytes}
    (h : b ++ x = fs.flatMap serializeFrame) : ∃ gs hs r, fs = gs ++ hs ∧
      drain wireValue b = (gs, .incomplete r) ∧ r ++ x = hs.flatMap serializeFrame :=
  drain_part consumes_wireValue wireValue_ne_tooDeep stable_wireValue rfl
    (fun f hf y => wireValue_writeFrame (hfs f hf).1 (hfs f hf).2 y) h

/-- Nothing but whole frames is left where nothing can be read. -/
theorem sent_nil {fs : List Frame} (hfs : ∀ f ∈ fs, f.Fits ∧ f.OneLine) {b : Bytes}
    (h : b = fs.flatMap serializeFrame) (hb : wireValue b = .error .incomplete) : fs = [] := by
  cases fs with
  | nil => rfl
  | cons f fs =>
    rw [List.forall_mem_cons] at hfs
    rw [h, List.flatMap_cons, serializeFrame, wireValue_writeFrame hfs.1.1 hfs.1.2] at hb
    cases hb

/-- The leader waits for the whole of `SYNC`. -/
theorem parseFrame_sync {b x : Bytes} (h : b ++ x = syncBytes) :
    parseFrame b = .ok (if x = [] then some (.command ["SYNC"], b.length) else none) := by
  have hsync : syncBytes = [Frame.command ["SYNC"]].flatMap serializeFrame := by decide
  have hfits : ∀ f ∈ [Frame.command ["SYNC"]], f.Fits ∧ f.OneLine := by
    intro f hf
    obtain rfl := List.mem_singleton.mp hf
    refine ⟨?_, ?_⟩
    · simp only [Frame.command, List.map, Frame.bulkStr, Frame.Fits, Frame.AllFit]
      decide
    · simp [Frame.command, Frame.bulkStr, Frame.OneLine, Frame.AllOneLine]
  split
  · next hx =>
    have hb : b = serializeFrame (.command ["SYNC"]) := by
      rw [hx, List.append_nil] at h
      exact h.trans (hsync.trans (List.append_nil _))
    have hone := hfits _ (List.mem_singleton_self _)
    rw [hb, parseFrame_serializeFrame hone.1 hone.2]
  · next hx =>
    obtain ⟨gs, hs, r, hsplit, hdrain, hr⟩ := drain_sent hfits (h.trans hsync)
    cases gs with
    | nil =>
      obtain rfl : [Frame.command ["SYNC"]] = hs := hsplit
      obtain rfl : r = b := List.append_cancel_right (hr.trans (hsync.symm.trans h.symm))
      have hpart := (drain_rest consumes_wireValue wireValue_ne_tooDeep hdrain).2
      rw [parseFrame, hpart]
    | cons g gs =>
      obtain ⟨-, hnil⟩ := List.cons.inj hsplit
      obtain ⟨rfl, rfl⟩ := List.append_eq_nil_iff.mp hnil.symm
      exact absurd (List.append_eq_nil_iff.mp hr).2 hx

/-- The command of a snapshot entry holds no line of its own with a line feed. -/
theorem oneLine_snapshotEntryToResp (e : SnapshotEntry) : (snapshotEntryToResp e).OneLine := by
  rw [snapshotEntryToResp_eq_bulks, Frame.bulks, Frame.OneLine, allOneLine_iff]
  intro f hf
  obtain ⟨b, -, rfl⟩ := List.mem_map.mp hf
  trivial

/-! ## The invariant -/

namespace ReplicaLink

variable {d : Deployment} {c c' : ReplicaLink} {e : LinkEvent} {s t : Store}

/-- The session before there is anything to send. -/
def Fresh (c : ReplicaLink) : Prop := c.next = c.session.start ∧ c.session.snapshot = []

/-- What was sent is what the follower has executed, what is on the way and `unsent`. -/
def Sent (c : ReplicaLink) (unsent : List Frame) : Prop :=
  c.session.executed ++ c.inflight ++ unsent =
    c.session.snapshot ++ (c.log.take c.next).drop c.session.start

/-- What the leader, the connection and the follower hold add up to the subscription. -/
structure Inv (c : ReplicaLink) : Prop where
  bounds : c.session.start ≤ c.next ∧ c.next ≤ c.log.length
  sendable : ∀ frame ∈ c.session.snapshot ++ (c.log ++ c.pending),
    frame.Fits ∧ frame.OneLine
  accepting : ∀ buf, c.task = .accepting buf → c.Fresh ∧ buf ++ c.toLeader = syncBytes
  subscribed : c.task = .subscribed → c.Fresh
  sending : ∀ rest, c.task = .sending rest → c.Sent rest
  streaming : c.task = .streaming → c.Sent []
  sent : ∃ unsent, c.Sent unsent
  reading : ∀ buf, c.follower = .reading buf → wireValue buf = .error .incomplete ∧
    buf ++ c.toFollower = c.inflight.flatMap serializeFrame
  away : (∀ buf, c.follower ≠ .reading buf) → c.task = .closed
  past : ∀ x ∈ c.past, x.start ≤ c.log.length ∧ x.executed <+: x.snapshot ++ c.log.drop x.start
  backoff : c.backoff = min (500 * 2 ^ c.attempts) 30000

/-- What a step can do. -/
inductive Move (d : Deployment) (c : ReplicaLink) : LinkEvent → ReplicaLink → Prop
  | write {env : Env} {frame : Frame}
    (hwrite : broadcasts d.leader frame (d.onLeader env frame c.leader).reply = true) :
    Move d c (.write env frame) { c with
      leader := (d.onLeader env frame c.leader).store, pending := c.pending ++ [frame] }
  | broadcast {i : ℕ} {frame : Frame} (hpending : c.pending[i]? = some frame) :
    Move d c (.broadcast i) { c with
      pending := c.pending.eraseIdx i, log := c.log ++ [frame] }
  | connect (hfollower : c.follower = .connecting) : Move d c .connect { c with
      task := .accepting [], next := c.log.length, toLeader := syncBytes, toFollower := [],
      follower := .reading [], session := ⟨c.log.length, [], []⟩, inflight := [] }
  | refuse (hfollower : c.follower = .connecting) :
    Move d c .refuse { c with follower := .sleeping }
  | accept {n : ℕ} {buf : Bytes} (htask : c.task = .accepting buf) : Move d c (.leaderRead n)
      { c with task := .accepting (buf ++ c.toLeader.take n), toLeader := c.toLeader.drop n }
  | subscribe {n : ℕ} {buf : Bytes} (htask : c.task = .accepting buf) : Move d c (.leaderRead n)
      { c with
        task := .subscribed, next := c.log.length, toLeader := c.toLeader.drop n,
        session := ⟨c.log.length, [], []⟩ }
  | snapshot {env : Env} (htask : c.task = .subscribed) : Move d c (.snapshot env) { c with
      task := .sending (c.snapshotFrames env)
      session := { c.session with snapshot := c.snapshotFrames env } }
  | send {frame : Frame} {rest : List Frame} (htask : c.task = .sending (frame :: rest)) :
    Move d c .send { c with
      task := .sending rest, toFollower := c.toFollower ++ serializeFrame frame,
      inflight := c.inflight ++ [frame] }
  | sent (htask : c.task = .sending []) : Move d c .send { c with task := .streaming }
  | recv {frame : Frame} (htask : c.task = .streaming) (hframe : c.log[c.next]? = some frame) :
    Move d c .recv { c with
      next := c.next + 1, toFollower := c.toFollower ++ serializeFrame frame,
      inflight := c.inflight ++ [frame] }
  | lag (htask : c.task = .streaming) : Move d c .recv { c with task := .closed }
  | leaderEnd : Move d c .leaderEnd { c with task := .closed }
  | followerRead {n : ℕ} {envAt : ℕ → Env} {buf r : Bytes} {gs hs : List Frame}
    (hfollower : c.follower = .reading buf) (hsplit : c.inflight = gs ++ hs)
    (hdrain : drain wireValue (buf ++ c.toFollower.take n) = (gs, .incomplete r))
    (hrest : r ++ c.toFollower.drop n = hs.flatMap serializeFrame) :
    Move d c (.followerRead n envAt) { c with
      follower := .reading r, toFollower := c.toFollower.drop n,
      replica := applyLog d.replica Deployment.nowhere envAt 0 gs c.replica,
      session := { c.session with executed := c.session.executed ++ gs }, inflight := hs }
  | followerEnd {buf : Bytes} (hfollower : c.follower = .reading buf) :
    Move d c .followerEnd { c with
      task := .closed, toLeader := [], toFollower := [], follower := .sleeping,
      past := c.past ++ [c.session], inflight := [] }
  | wake (hfollower : c.follower = .sleeping) : Move d c .wake { c with
      follower := .connecting, attempts := c.attempts + 1, backoff := min (c.backoff * 2) 30000 }

/-- A session that has only just begun. -/
theorem Sent.fresh {unsent : List Frame} (h : c.Sent unsent) (hfresh : c.Fresh) :
    c.session.executed = [] ∧ c.inflight = [] ∧ unsent = [] := by
  have hnil : c.session.executed ++ c.inflight ++ unsent = [] := by
    rw [h, hfresh.2, hfresh.1, List.nil_append, List.drop_eq_nil_iff]
    exact List.length_take_le _ _
  rw [List.append_eq_nil_iff, List.append_eq_nil_iff] at hnil
  exact ⟨hnil.1.1, hnil.1.2, hnil.2⟩

/-- What is broadcast comes after all that was received. -/
theorem Sent.broadcast {unsent : List Frame} (h : c.Sent unsent) (hnext : c.next ≤ c.log.length)
    (i : ℕ) (frame : Frame) :
    Sent { c with pending := c.pending.eraseIdx i, log := c.log ++ [frame] } unsent := by
  unfold Sent
  rw [List.take_append_of_le_length hnext]
  exact h

/-- A frame of the snapshot is sent. -/
theorem Sent.send {frame : Frame} {rest : List Frame} (h : c.Sent (frame :: rest)) :
    Sent { c with
      task := .sending rest, toFollower := c.toFollower ++ serializeFrame frame,
      inflight := c.inflight ++ [frame] } rest := by
  unfold Sent at h ⊢
  rw [← h]
  simp

/-- The next frame of the log is sent. -/
theorem Sent.recv {frame : Frame} (h : c.Sent []) (hstart : c.session.start ≤ c.next)
    (hframe : c.log[c.next]? = some frame) :
    Sent { c with
      next := c.next + 1, toFollower := c.toFollower ++ serializeFrame frame,
      inflight := c.inflight ++ [frame] } [] := by
  have hlt : c.next < c.log.length := (List.getElem?_eq_some_iff.mp hframe).1
  have htake : c.log.take (c.next + 1) = c.log.take c.next ++ [frame] := by
    rw [List.take_add_one, hframe, Option.toList_some]
  have hdrop : c.session.start ≤ (c.log.take c.next).length := by
    rw [List.length_take]
    exact le_min hstart (hstart.trans hlt.le)
  unfold Sent at h
  change c.session.executed ++ (c.inflight ++ [frame]) ++ [] =
    c.session.snapshot ++ (c.log.take (c.next + 1)).drop c.session.start
  rw [htake, List.drop_append_of_le_length hdrop, ← List.append_assoc c.session.snapshot, ← h]
  simp

/-- A new session has its snapshot to send. -/
theorem Sent.snapshot {unsent : List Frame} (h : c.Sent unsent) (hfresh : c.Fresh)
    (frames : List Frame) :
    Sent { c with
      task := .sending frames, session := { c.session with snapshot := frames } } frames := by
  obtain ⟨hexecuted, hinflight, -⟩ := h.fresh hfresh
  have hnil : (c.log.take c.next).drop c.session.start = [] := by
    rw [← hfresh.1, List.drop_eq_nil_iff]
    exact List.length_take_le _ _
  unfold Sent
  rw [hexecuted, hinflight, hnil]
  exact (List.append_nil _).symm

/-- What the follower reads is executed and no longer under way. -/
theorem Sent.executes {unsent gs hs : List Frame} (h : c.Sent unsent)
    (hsplit : c.inflight = gs ++ hs) (follower : FollowerTask) (toFollower : Bytes)
    (replica : Store) :
    Sent { c with
      follower, toFollower, replica,
      session := { c.session with executed := c.session.executed ++ gs }, inflight := hs }
        unsent := by
  unfold Sent at h ⊢
  rw [← h, hsplit]
  simp

namespace Inv

/-- What was executed of the session. -/
theorem executed (inv : Inv c) :
    c.session.executed <+: c.session.snapshot ++ c.log.drop c.session.start := by
  obtain ⟨unsent, hsent⟩ := inv.sent
  have hpre : c.session.executed <+:
      c.session.snapshot ++ (c.log.take c.next).drop c.session.start := by
    rw [← hsent, List.append_assoc]
    exact List.prefix_append _ _
  refine hpre.trans (List.prefix_append_right_inj _ |>.mpr ?_)
  exact (List.take_prefix _ _).drop _

/-- What is under way can be sent and read back. -/
theorem inflight_sendable (inv : Inv c) : ∀ frame ∈ c.inflight, frame.Fits ∧ frame.OneLine := by
  intro frame hframe
  obtain ⟨unsent, hsent⟩ := inv.sent
  have hmem : frame ∈ c.session.snapshot ++ (c.log.take c.next).drop c.session.start := by
    rw [← hsent]
    exact List.mem_append_left _ (List.mem_append_right _ hframe)
  refine inv.sendable frame ?_
  rcases List.mem_append.mp hmem with hsnap | hlog
  · exact List.mem_append_left _ hsnap
  · exact List.mem_append_right _
      (List.mem_append_left _ (List.mem_of_mem_take (List.mem_of_mem_drop hlog)))

/-- The leader's task is over if the follower reads nothing. -/
theorem closed (inv : Inv c) {task : FollowerTask} (hfollower : c.follower = task)
    (hno : ∀ buf, task ≠ .reading buf) : c.task = .closed :=
  inv.away fun buf hbuf => hno buf (hfollower.symm.trans hbuf)

/-- A frame that is sent comes last of the bytes and of what is under way. -/
theorem reading_push (inv : Inv c) (frame : Frame) {buf : Bytes}
    (hbuf : c.follower = .reading buf) : wireValue buf = .error .incomplete ∧
      buf ++ (c.toFollower ++ serializeFrame frame) =
        (c.inflight ++ [frame]).flatMap serializeFrame := by
  obtain ⟨hpart, hbytes⟩ := inv.reading buf hbuf
  refine ⟨hpart, ?_⟩
  rw [← List.append_assoc, hbytes, List.flatMap_append, List.flatMap_singleton]

/-- A link starts in its invariant. -/
theorem start (s t : Store) : Inv (start s t) where
  bounds := ⟨le_rfl, le_rfl⟩
  sendable := nofun
  accepting := nofun
  subscribed := nofun
  sending := nofun
  streaming := nofun
  sent := ⟨[], rfl⟩
  reading := nofun
  away := fun _ => rfl
  past := nofun
  backoff := rfl

/-- Every step from the invariant is one of the moves. -/
theorem move (inv : Inv c) (h : c.step d e = some c') : Move d c e c' := by
  cases e with
  | write env frame =>
    simp only [ReplicaLink.step] at h
    split at h
    · next hcond =>
      obtain rfl := Option.some.inj h
      exact .write hcond
    · cases h
  | broadcast i =>
    simp only [ReplicaLink.step] at h
    split at h
    · cases h
    · next hpending =>
      obtain rfl := Option.some.inj h
      exact .broadcast hpending
  | connect =>
    simp only [ReplicaLink.step] at h
    split at h
    · next hfollower =>
      obtain rfl := Option.some.inj h
      exact .connect hfollower
    · cases h
  | refuse =>
    simp only [ReplicaLink.step] at h
    split at h
    · next hfollower =>
      obtain rfl := Option.some.inj h
      exact .refuse hfollower
    · cases h
  | leaderRead n =>
    simp only [ReplicaLink.step] at h
    split at h
    · next buf htask =>
      split at h
      · have hbytes : buf ++ c.toLeader.take n ++ c.toLeader.drop n = syncBytes := by
          rw [List.append_assoc, List.take_append_drop]
          exact (inv.accepting buf htask).2
        have hsync : isSyncCommand (.command ["SYNC"]) = true := by decide
        rw [parseFrame_sync hbytes] at h
        by_cases hx : c.toLeader.drop n = []
        · simp only [hx, if_true, hsync] at h
          obtain rfl := Option.some.inj h
          rw [← hx]
          exact .subscribe htask
        · simp only [hx, if_false] at h
          obtain rfl := Option.some.inj h
          exact .accept htask
      · cases h
    · cases h
  | snapshot env =>
    simp only [ReplicaLink.step] at h
    split at h
    · next htask =>
      obtain rfl := Option.some.inj h
      exact .snapshot htask
    · cases h
  | send =>
    simp only [ReplicaLink.step] at h
    split at h
    · next htask =>
      obtain rfl := Option.some.inj h
      exact .send htask
    · next htask =>
      obtain rfl := Option.some.inj h
      exact .sent htask
    · cases h
  | recv =>
    simp only [ReplicaLink.step] at h
    split at h
    · next htask =>
      split at h
      · next hframe =>
        obtain rfl := Option.some.inj h
        exact .recv htask (recv_message hframe)
      · obtain rfl := Option.some.inj h
        exact .lag htask
      · cases h
    · cases h
  | leaderEnd =>
    obtain rfl := Option.some.inj h
    exact .leaderEnd
  | followerRead n envAt =>
    simp only [ReplicaLink.step] at h
    split at h
    · next buf hfollower =>
      split at h
      · obtain rfl := Option.some.inj h
        have hbytes : buf ++ c.toFollower.take n ++ c.toFollower.drop n =
            c.inflight.flatMap serializeFrame := by
          rw [List.append_assoc, List.take_append_drop]
          exact (inv.reading buf hfollower).2
        obtain ⟨gs, hs, r, hsplit, hdrain, hrest⟩ := drain_sent inv.inflight_sendable hbytes
        rw [replicate, replicateLoop_part (Nat.lt_succ_self _) hdrain, hdrain, hsplit,
          List.drop_left]
        exact .followerRead hfollower hsplit hdrain hrest
      · cases h
    · cases h
  | followerEnd =>
    simp only [ReplicaLink.step] at h
    split at h
    · next hfollower =>
      obtain rfl := Option.some.inj h
      exact .followerEnd hfollower
    · cases h
  | wake =>
    simp only [ReplicaLink.step] at h
    split at h
    · next hfollower =>
      obtain rfl := Option.some.inj h
      exact .wake hfollower
    · cases h

/-- A move keeps the invariant. -/
theorem step (inv : Inv c) (hfit : c.SendsFit e) (h : Move d c e c') : Inv c' := by
  have hbusy {task : LeaderTask} (htask : c.task = task) (hne : task ≠ .closed)
      (hno : ∀ buf, c.follower ≠ .reading buf) : False :=
    hne (htask.symm.trans (inv.away hno))
  cases h with
  | @write env frame hwrite =>
    refine { inv with sendable := fun f hf => ?_ }
    rw [← List.append_assoc c.log, ← List.append_assoc, List.mem_append,
      List.mem_singleton] at hf
    rcases hf with hold | rfl
    · exact inv.sendable f hold
    · exact hfit
  | @broadcast i frame hpending =>
    have hsent {unsent : List Frame} (hsent : c.Sent unsent) :=
      hsent.broadcast inv.bounds.2 i frame
    refine ⟨⟨inv.bounds.1, ?_⟩, ?_, inv.accepting, inv.subscribed,
      fun rest htask => hsent (inv.sending rest htask), fun htask => hsent (inv.streaming htask),
      inv.sent.imp fun _ => hsent, inv.reading, inv.away, ?_, inv.backoff⟩
    · rw [List.length_append]
      exact inv.bounds.2.trans (Nat.le_add_right _ _)
    · intro f hf
      refine inv.sendable f ?_
      simp only [List.mem_append, List.mem_singleton] at hf ⊢
      rcases hf with hsnap | (hlog | rfl) | hrest
      · exact .inl hsnap
      · exact .inr (.inl hlog)
      · exact .inr (.inr (List.mem_of_getElem? hpending))
      · exact .inr (.inr (List.mem_of_mem_eraseIdx hrest))
    · intro x hx
      obtain ⟨hle, hpre⟩ := inv.past x hx
      rw [List.length_append, List.drop_append_of_le_length hle, ← List.append_assoc]
      exact ⟨hle.trans (Nat.le_add_right _ _), hpre.trans (List.prefix_append _ _)⟩
  | connect hfollower =>
    have hnil : (c.log.take c.log.length).drop c.log.length = [] := by
      rw [List.take_length, List.drop_length]
    refine ⟨⟨le_rfl, le_rfl⟩, fun f hf => inv.sendable f (List.mem_append_right _ hf), ?_, nofun,
      nofun, nofun, ⟨[], hnil.symm⟩, ?_, ?_, inv.past, inv.backoff⟩
    · intro buf hbuf
      obtain rfl := LeaderTask.accepting.inj hbuf
      exact ⟨⟨rfl, rfl⟩, rfl⟩
    · intro buf hbuf
      obtain rfl := FollowerTask.reading.inj hbuf
      exact ⟨rfl, rfl⟩
    · exact fun hno => absurd rfl (hno [])
  | refuse hfollower =>
    have hclosed := inv.closed hfollower nofun
    exact { inv with reading := nofun, away := fun _ => hclosed }
  | @accept n buf htask =>
    obtain ⟨hfresh, hbytes⟩ := inv.accepting buf htask
    refine { inv with
      accepting := ?_, subscribed := nofun, sending := nofun, streaming := nofun
      away := fun hno => (hbusy htask nofun hno).elim }
    intro buf' hbuf'
    obtain rfl := LeaderTask.accepting.inj hbuf'
    refine ⟨hfresh, ?_⟩
    rw [List.append_assoc, List.take_append_drop]
    exact hbytes
  | @subscribe n buf htask =>
    have hnil : (c.log.take c.log.length).drop c.log.length = [] := by
      rw [List.take_length, List.drop_length]
    obtain ⟨unsent, hsent⟩ := inv.sent
    obtain ⟨-, hinflight, -⟩ := hsent.fresh (inv.accepting buf htask).1
    refine ⟨⟨le_rfl, le_rfl⟩, fun f hf => inv.sendable f (List.mem_append_right _ hf), nofun,
      fun _ => ⟨rfl, rfl⟩, nofun, nofun, ⟨[], ?_⟩, inv.reading,
      fun hno => (hbusy htask nofun hno).elim, inv.past, inv.backoff⟩
    unfold Sent
    rw [hinflight, hnil]
    rfl
  | @snapshot env htask =>
    obtain ⟨unsent, hsent⟩ := inv.sent
    have hframes := hsent.snapshot (inv.subscribed htask) (c.snapshotFrames env)
    refine ⟨inv.bounds, ?_, nofun, nofun, ?_, nofun, ⟨_, hframes⟩, inv.reading,
      fun hno => (hbusy htask nofun hno).elim, inv.past, inv.backoff⟩
    · intro f hf
      rcases List.mem_append.mp hf with hsnap | hold
      · obtain ⟨x, -, rfl⟩ := List.mem_map.mp hsnap
        exact ⟨hfit _ hsnap, oneLine_snapshotEntryToResp x⟩
      · exact inv.sendable f (List.mem_append_right _ hold)
    · intro rest hrest
      obtain rfl := LeaderTask.sending.inj hrest
      exact hframes
  | @send frame rest htask =>
    have hframes := (inv.sending _ htask).send
    refine ⟨inv.bounds, inv.sendable, nofun, nofun, ?_, nofun, ⟨_, hframes⟩,
      fun _ => inv.reading_push frame, fun hno => (hbusy htask nofun hno).elim, inv.past,
      inv.backoff⟩
    intro rest' hrest
    obtain rfl := LeaderTask.sending.inj hrest
    exact hframes
  | sent htask =>
    have hsent := inv.sending _ htask
    exact { inv with
      accepting := nofun, subscribed := nofun, sending := nofun, streaming := fun _ => hsent
      away := fun hno => (hbusy htask nofun hno).elim }
  | @recv frame htask hframe =>
    have hlt : c.next < c.log.length := (List.getElem?_eq_some_iff.mp hframe).1
    have hframes := (inv.streaming htask).recv inv.bounds.1 hframe
    refine ⟨⟨inv.bounds.1.trans (Nat.le_succ _), hlt⟩, inv.sendable, ?_, ?_, ?_, fun _ => hframes,
      ⟨_, hframes⟩, fun _ => inv.reading_push frame, fun hno => (hbusy htask nofun hno).elim,
      inv.past, inv.backoff⟩
    · intro buf hbuf
      cases htask.symm.trans hbuf
    · intro hsub
      cases htask.symm.trans hsub
    · intro rest hrest
      cases htask.symm.trans hrest
  | lag htask =>
    exact { inv with
      accepting := nofun, subscribed := nofun, sending := nofun, streaming := nofun
      away := fun _ => rfl }
  | leaderEnd =>
    exact { inv with
      accepting := nofun, subscribed := nofun, sending := nofun, streaming := nofun
      away := fun _ => rfl }
  | @followerRead n envAt buf r gs hs hfollower hsplit hdrain hrest =>
    have hsent {unsent : List Frame} (hsent : c.Sent unsent) :=
      hsent.executes hsplit (.reading r) (c.toFollower.drop n)
        (applyLog d.replica Deployment.nowhere envAt 0 gs c.replica)
    refine ⟨inv.bounds, inv.sendable, inv.accepting, inv.subscribed,
      fun rest htask => hsent (inv.sending rest htask), fun htask => hsent (inv.streaming htask),
      inv.sent.imp fun _ => hsent, ?_, fun hno => absurd rfl (hno r), inv.past, inv.backoff⟩
    intro buf' hbuf'
    obtain rfl := FollowerTask.reading.inj hbuf'
    exact ⟨(drain_rest consumes_wireValue wireValue_ne_tooDeep hdrain).2, hrest⟩
  | followerEnd hfollower =>
    refine ⟨inv.bounds, inv.sendable, nofun, nofun, nofun, nofun, ?_, nofun, fun _ => rfl, ?_,
      inv.backoff⟩
    · obtain ⟨unsent, hsent⟩ := inv.sent
      refine ⟨c.inflight ++ unsent, ?_⟩
      unfold Sent at hsent ⊢
      rw [← hsent]
      simp
    · intro x hx
      rcases List.mem_append.mp hx with hold | hnew
      · exact inv.past x hold
      · obtain rfl := List.mem_singleton.mp hnew
        exact ⟨inv.bounds.1.trans inv.bounds.2, inv.executed⟩
  | wake hfollower =>
    have hclosed := inv.closed hfollower nofun
    refine { inv with reading := nofun, away := fun _ => hclosed, backoff := ?_ }
    change min (c.backoff * 2) 30000 = min (500 * 2 ^ (c.attempts + 1)) 30000
    rw [inv.backoff, pow_succ]
    omega

end Inv

/-- All that was broadcast has been executed. -/
theorem Settled.executed (h : c.Settled) (inv : Inv c) : c.inflight = [] ∧
    c.session.executed = c.session.snapshot ++ c.log.drop c.session.start := by
  obtain ⟨buf, hbuf⟩ := h.follower
  obtain ⟨hpart, hbytes⟩ := inv.reading buf hbuf
  rw [h.arrived, List.append_nil] at hbytes
  have hnil := sent_nil inv.inflight_sendable hbytes hpart
  have hsent := inv.streaming h.task
  unfold Sent at hsent
  rw [hnil, h.received, List.take_length, List.append_nil, List.append_nil] at hsent
  exact ⟨hnil, hsent⟩

/-- The invariant holds after every run whose frames fit. -/
theorem inv_of_run (h : Runs.Run (step d) SendsFit (start s t) c) : Inv c :=
  h.invariant (I := Inv) (fun _ _ _ inv hfit hstep => inv.step hfit (inv.move hstep)) (.start s t)

end ReplicaLink

/-- Whatever is written meanwhile, however the network cuts the bytes, and whenever a connection
lags or breaks and is made again : of each connection the follower has executed the beginning of its
snapshot and of all that was broadcast from its subscription on, and all of it when nothing is on
the way. -/
theorem replica_stream_exact (d : Deployment) {s t : Store} {c : ReplicaLink}
    (h : Runs.Run (ReplicaLink.step d) ReplicaLink.SendsFit (.start s t) c) :
    (∀ x ∈ c.past ++ [c.session], x.executed <+: x.snapshot ++ c.log.drop x.start) ∧
      (c.Settled → c.session.executed = c.session.snapshot ++ c.log.drop c.session.start) ∧
      c.backoff = min (500 * 2 ^ c.attempts) 30000 := by
  have inv := ReplicaLink.inv_of_run h
  refine ⟨fun x hx => ?_, fun hsettled => (hsettled.executed inv).2, inv.backoff⟩
  rcases List.mem_append.mp hx with hpast | hlast
  · exact (inv.past x hpast).2
  · obtain rfl := List.mem_singleton.mp hlast
    exact inv.executed

section Reconnecting

/-- `INCR k`. -/
def incrKey : Frame := .command ["INCR", "k"]

/-- `SET k 1`. -/
def setKey : Frame := .command ["SET", "k", "1"]

/-- Nothing is under way. -/
def ReplicaLink.isSettled (c : ReplicaLink) : Bool :=
  match c.task, c.follower with
  | .streaming, .reading _ =>
    c.pending.isEmpty && c.next = c.log.length && c.toFollower.isEmpty
  | _, _ => false

theorem ReplicaLink.settled_of_isSettled {c : ReplicaLink} (h : c.isSettled = true) :
    c.Settled := by
  unfold isSettled at h
  split at h
  · next htask hbuf =>
    simp only [Bool.and_eq_true, decide_eq_true_eq, List.isEmpty_iff] at h
    exact ⟨htask, h.1.1, h.1.2, h.2, _, hbuf⟩
  · cases h

/-- `INCR k` is written, and `SET k 1` is sent of the snapshot. -/
def ReplicaLink.sendsSmall (c : ReplicaLink) : LinkEvent → Bool
  | .write _ frame => frame = incrKey
  | .snapshot env => c.snapshotFrames env = [] || c.snapshotFrames env = [setKey]
  | _ => true

theorem ReplicaLink.fits_of_sendsSmall {c : ReplicaLink} {e : LinkEvent}
    (h : c.sendsSmall e = true) : c.SendsFit e := by
  have hincr : incrKey.Fits := by
    simp only [incrKey, Frame.command, List.map, Frame.bulkStr, Frame.Fits, Frame.AllFit]
    decide
  have hset : setKey.Fits := by
    simp only [setKey, Frame.command, List.map, Frame.bulkStr, Frame.Fits, Frame.AllFit]
    decide
  cases e with
  | write env frame =>
    obtain rfl : frame = incrKey := by simpa [sendsSmall] using h
    exact ⟨hincr, by simp [incrKey, Frame.command, Frame.bulkStr, Frame.OneLine,
      Frame.AllOneLine]⟩
  | snapshot env =>
    intro frame hframe
    obtain hnil | hone : c.snapshotFrames env = [] ∨ c.snapshotFrames env = [setKey] := by
      simpa [sendsSmall] using h
    · rw [hnil] at hframe
      simp at hframe
    · rw [hone] at hframe
      exact List.mem_singleton.mp hframe ▸ hset
  | _ => trivial

/-- The connection breaks in the middle of `INCR k`, and is made again. -/
def brokenOnce : List LinkEvent :=
  [.connect, .leaderRead 14, .snapshot (.plain 0), .send, .write (.plain 0) incrKey,
    .broadcast 0, .recv, .followerRead 10 fun _ => .plain 0, .leaderEnd, .followerEnd, .wake,
    .connect, .leaderRead 14, .snapshot (.plain 0), .send, .send, .followerRead 27 fun _ => .plain 0]

theorem replica_stream_exact_once : ∃ c : ReplicaLink, c.Settled ∧ c.attempts = 1 ∧
    c.session.executed = c.session.snapshot ++ c.log.drop c.session.start ∧
      c.backoff = min (500 * 2 ^ c.attempts) 30000 ∧
        ∀ x ∈ c.past ++ [c.session], x.executed <+: x.snapshot ++ c.log.drop x.start := by
  have hrun : (Runs.exec (ReplicaLink.step smallDeployment) (fun c e => c.sendsSmall e = true)
      (.start ∅ ∅) brokenOnce).any (fun c => c.isSettled && c.attempts = 1) = true := by
    decide +kernel
  obtain ⟨c, hc, hp⟩ := Runs.exists_run_of_exec hrun
  rw [Bool.and_eq_true, decide_eq_true_eq] at hp
  have hsettled := ReplicaLink.settled_of_isSettled hp.1
  obtain ⟨hpre, hall, hbackoff⟩ := replica_stream_exact smallDeployment
    (hc.mono fun _ _ => ReplicaLink.fits_of_sendsSmall)
  exact ⟨c, hsettled, hp.2, hall hsettled, hbackoff, hpre⟩

end Reconnecting

/-! ## The first connection -/

namespace ReplicaLink

variable {d : Deployment} {c c' : ReplicaLink} {e : LinkEvent} {s : Store} {σ : SyncState}

/-- The frames fit, the writes are deterministic and come when those before are broadcast, and the
snapshot is clean. -/
def RunsClean (d : Deployment) (c : ReplicaLink) : LinkEvent → Prop
  | .write _ frame => (frame.Fits ∧ frame.OneLine) ∧ c.pending = [] ∧
    isDeterministic d.leader frame = true
  | .snapshot env => (∀ frame ∈ c.snapshotFrames env, frame.Fits) ∧
    (d.replay (.plain 0) (c.log.drop c.next ++ c.pending) c.leader).contents =
      c.leader.contents ∧ c.leader.Sendable
  | _ => True

/-- A clean step sends frames that fit. -/
theorem RunsClean.fits (h : RunsClean d c e) : c.SendsFit e := by
  cases e with
  | write | snapshot => exact h.1
  | _ => trivial

/-- The connection is not made yet. -/
def IsIdle (c : ReplicaLink) : Prop :=
  (∀ buf, c.follower ≠ .reading buf) ∨ ∃ buf, c.task = .accepting buf

/-- A follower that reads an open connection is not idle. -/
theorem not_isIdle {buf : Bytes} (hbuf : c.follower = .reading buf)
    (hno : ∀ buf, c.task ≠ .accepting buf) : ¬ c.IsIdle := by
  rintro (haway | ⟨buf', haccepting⟩)
  · exact haway buf hbuf
  · exact hno buf' haccepting

/-- The state of full-sync with whole frames and a channel without bounds. -/
structure Tracks (c : ReplicaLink) (σ : SyncState) : Prop where
  leader : σ.leader = c.leader
  pending : σ.pending.toList = c.pending
  replica : σ.replica = c.replica
  idle : c.IsIdle → σ.phase = .idle ∧ σ.channel = [] ∧ σ.socket = []
  subscribed : c.task = .subscribed →
    σ.phase = .subscribed ∧ σ.channel = c.log.drop c.next ∧ σ.socket = []
  sending : ∀ rest, c.task = .sending rest →
    σ.phase = .streaming ∧ σ.channel = c.log.drop c.next ∧ σ.socket = c.inflight ++ rest
  streaming : c.task = .streaming →
    σ.phase = .streaming ∧ σ.channel = c.log.drop c.next ∧ σ.socket = c.inflight

/-- The leader has ended the connection, and the follower does not know yet. -/
def IsBroken (c : ReplicaLink) : Prop := c.task = .closed ∧ ∃ buf, c.follower = .reading buf

section Tracks

variable (hleader : σ.leader = c.leader) (hpending : σ.pending.toList = c.pending)
  (hreplica : σ.replica = c.replica)

include hleader hpending hreplica

/-- A closed or opening connection is tracked by an idle session. -/
theorem tracks_idle (htask : c.task = .closed ∨ ∃ buf, c.task = .accepting buf)
    (h : c.IsIdle → σ.phase = .idle ∧ σ.channel = [] ∧ σ.socket = []) : c.Tracks σ := by
  have hno {task : LeaderTask} (ht : c.task = task)
      (hne : task ≠ .closed ∧ ∀ buf, task ≠ .accepting buf) : False := by
    rcases htask with hclosed | ⟨buf, haccepting⟩
    · exact hne.1 (ht.symm.trans hclosed)
    · exact hne.2 buf (ht.symm.trans haccepting)
  exact ⟨hleader, hpending, hreplica, h, fun ht => (hno ht (by simp)).elim,
    fun _ ht => (hno ht (by simp)).elim, fun ht => (hno ht (by simp)).elim⟩

variable {buf : Bytes} (hbuf : c.follower = .reading buf)

include hbuf

/-- A subscribed connection is tracked by a session with its channel. -/
theorem tracks_subscribed (htask : c.task = .subscribed)
    (h : σ.phase = .subscribed ∧ σ.channel = c.log.drop c.next ∧ σ.socket = []) : c.Tracks σ := by
  refine ⟨hleader, hpending, hreplica, fun hidle => ?_, fun _ => h, fun _ ht => ?_, fun ht => ?_⟩
  · exact absurd hidle (not_isIdle hbuf fun _ ht => by cases htask.symm.trans ht)
  · cases htask.symm.trans ht
  · cases htask.symm.trans ht

/-- A connection that sends the snapshot is tracked with the rest of it in the socket. -/
theorem tracks_sending {rest : List Frame} (htask : c.task = .sending rest)
    (h : σ.phase = .streaming ∧ σ.channel = c.log.drop c.next ∧
      σ.socket = c.inflight ++ rest) : c.Tracks σ := by
  refine ⟨hleader, hpending, hreplica, fun hidle => ?_, fun ht => ?_, fun rest' ht => ?_,
    fun ht => ?_⟩
  · exact absurd hidle (not_isIdle hbuf fun _ ht => by cases htask.symm.trans ht)
  · cases htask.symm.trans ht
  · obtain rfl := LeaderTask.sending.inj (htask.symm.trans ht)
    exact h
  · cases htask.symm.trans ht

/-- A streaming connection is tracked with its frames in the socket. -/
theorem tracks_streaming (htask : c.task = .streaming)
    (h : σ.phase = .streaming ∧ σ.channel = c.log.drop c.next ∧
      σ.socket = c.inflight) : c.Tracks σ := by
  refine ⟨hleader, hpending, hreplica, fun hidle => ?_, fun ht => ?_, fun _ ht => ?_, fun _ => h⟩
  · exact absurd hidle (not_isIdle hbuf fun _ ht => by cases htask.symm.trans ht)
  · cases htask.symm.trans ht
  · cases htask.symm.trans ht

end Tracks

/-- The replica executes the first frames of the socket. -/
theorem run_apply (envAt : ℕ → Env) : ∀ {gs hs : List Frame} {i : ℕ} {σ : SyncState},
    σ.socket = gs ++ hs → Runs.Run d.step d.Clean σ { σ with
      socket := hs, replica := applyLog d.replica Deployment.nowhere envAt i gs σ.replica }
  | [], hs, i, σ, h => by
    obtain rfl : σ.socket = hs := h
    exact .refl _
  | g :: gs, hs, i, σ, h => by
    have hstep : d.step σ (.apply (envAt i)) = some { σ with
        socket := gs ++ hs, replica := d.onReplica (envAt i) g σ.replica } := by
      simp only [Deployment.step, h, List.cons_append]
    have hrest := @run_apply envAt gs hs (i + 1) { σ with
      socket := gs ++ hs, replica := d.onReplica (envAt i) g σ.replica } rfl
    exact (Runs.Run.tail (.refl σ) trivial hstep).trans hrest

/-- A broken connection remains so until the follower ends it. -/
theorem IsBroken.move (h : c.IsBroken) (hmove : Move d c e c') (hpast : c'.past = []) :
    c'.IsBroken := by
  obtain ⟨hclosed, buf, hbuf⟩ := h
  cases hmove with
  | connect hfollower | refuse hfollower | wake hfollower => cases hfollower.symm.trans hbuf
  | accept htask | subscribe htask | snapshot htask | send htask | sent htask | recv htask
  | lag htask => cases htask.symm.trans hclosed
  | followerEnd => exact absurd hpast (List.append_ne_nil_of_right_ne_nil _ (List.cons_ne_nil _ _))
  | followerRead => exact ⟨hclosed, _, rfl⟩
  | write | broadcast => exact ⟨hclosed, buf, hbuf⟩
  | leaderEnd => exact ⟨rfl, buf, hbuf⟩

/-- A step of the connection is some steps of full-sync, or it breaks the connection. -/
theorem Tracks.move (h : c.Tracks σ) (inv : Inv c) (hok : RunsClean d c e) (hmove : Move d c e c')
    (hpast : c'.past = []) :
    c'.IsBroken ∨ ∃ σ', Runs.Run d.step d.Clean σ σ' ∧ c'.Tracks σ' := by
  have hopen {task : LeaderTask} (htask : c.task = task) (hne : task ≠ .closed) :
      ∃ buf, c.follower = .reading buf := by
    by_contra hno
    rw [not_exists] at hno
    exact hne (htask.symm.trans (inv.away hno))
  cases hmove with
  | @write env frame hwrite =>
    obtain ⟨-, hnone, hdet⟩ := hok
    have hpending : σ.pending = none := by rw [← Option.toList_eq_nil_iff, h.pending, hnone]
    have hstep : d.step σ (.write env frame) = some { σ with
        leader := (d.onLeader env frame c.leader).store, pending := some frame } := by
      simp only [Deployment.step, h.leader]
      rw [if_pos ⟨hpending, hdet, hwrite⟩]
    exact .inr ⟨_, .tail (e := .write env frame) (.refl σ) trivial hstep, rfl,
      (congrArg (· ++ [frame]) hnone).symm, h.replica, h.idle, h.subscribed, h.sending,
      h.streaming⟩
  | @broadcast i frame hi =>
    -- There is only one that can be broadcast.
    obtain ⟨hpending, hrest⟩ : σ.pending = some frame ∧ c.pending.eraseIdx i = [] := by
      rw [← h.pending] at hi ⊢
      cases hone : σ.pending with
      | none =>
        rw [hone] at hi
        cases hi
      | some f =>
        rw [hone] at hi
        cases i with
        | zero => exact ⟨hi, rfl⟩
        | succ i => cases hi
    have hstep : d.step σ .broadcast = some { σ with
        pending := none
        channel := if σ.phase = .idle then σ.channel else σ.channel ++ [frame] } := by
      simp only [Deployment.step, hpending]
    have hchannel {phase : SyncPhase} (hphase : σ.phase = phase) (hne : phase ≠ .idle)
        (hlog : σ.channel = c.log.drop c.next) :
        (if σ.phase = .idle then σ.channel else σ.channel ++ [frame]) =
          (c.log ++ [frame]).drop c.next := by
      rw [if_neg (hphase ▸ hne), hlog, List.drop_append_of_le_length inv.bounds.2]
    refine .inr ⟨_, .tail (e := .broadcast) (.refl σ) trivial hstep, h.leader, hrest.symm,
      h.replica, ?_, ?_, ?_, ?_⟩
    · intro hidle
      obtain ⟨hphase, hnil, hsocket⟩ := h.idle hidle
      exact ⟨hphase, by rw [if_pos hphase, hnil], hsocket⟩
    · intro htask
      obtain ⟨hphase, hlog, hsocket⟩ := h.subscribed htask
      exact ⟨hphase, hchannel hphase (by simp) hlog, hsocket⟩
    · intro rest htask
      obtain ⟨hphase, hlog, hsocket⟩ := h.sending rest htask
      exact ⟨hphase, hchannel hphase (by simp) hlog, hsocket⟩
    · intro htask
      obtain ⟨hphase, hlog, hsocket⟩ := h.streaming htask
      exact ⟨hphase, hchannel hphase (by simp) hlog, hsocket⟩
  | connect hfollower =>
    have hidle : c.IsIdle := .inl fun buf hbuf => by cases hfollower.symm.trans hbuf
    exact .inr ⟨σ, .refl σ, tracks_idle h.leader h.pending h.replica (.inr ⟨[], rfl⟩)
      fun _ => h.idle hidle⟩
  | refuse hfollower | wake hfollower =>
    have hno : ∀ buf, c.follower ≠ .reading buf := fun buf hbuf => by
      cases hfollower.symm.trans hbuf
    exact .inr ⟨σ, .refl σ, tracks_idle h.leader h.pending h.replica (.inl (inv.away hno))
      fun _ => h.idle (.inl hno)⟩
  | @accept n buf htask =>
    exact .inr ⟨σ, .refl σ, tracks_idle h.leader h.pending h.replica (.inr ⟨_, rfl⟩)
      fun _ => h.idle (.inr ⟨buf, htask⟩)⟩
  | @subscribe n buf htask =>
    obtain ⟨hphase, hchannel, hsocket⟩ := h.idle (.inr ⟨buf, htask⟩)
    have hstep : d.step σ .subscribe = some { σ with phase := .subscribed } := by
      simp only [Deployment.step, hphase, if_true]
    obtain ⟨buf', hbuf⟩ := hopen htask (by simp)
    exact .inr ⟨_, .tail (e := .subscribe) (.refl σ) trivial hstep, tracks_subscribed h.leader
      h.pending h.replica hbuf rfl ⟨rfl, hchannel.trans List.drop_length.symm, hsocket⟩⟩
  | @snapshot env htask =>
    obtain ⟨hphase, hchannel, hsocket⟩ := h.subscribed htask
    have hstep : d.step σ (.snapshot env) = some { σ with
        phase := .streaming, socket := σ.socket ++ c.snapshotFrames env } := by
      simp only [Deployment.step, hphase, if_true, h.leader]
      rfl
    have hclean : d.Clean σ (.snapshot env) := by
      change (d.replay (.plain 0) (σ.channel ++ σ.pending.toList) σ.leader).contents =
        σ.leader.contents ∧ σ.leader.Sendable
      rw [hchannel, h.pending, h.leader]
      exact hok.2
    obtain ⟨unsent, hsent⟩ := inv.sent
    obtain ⟨-, hinflight, -⟩ := hsent.fresh (inv.subscribed htask)
    obtain ⟨buf', hbuf⟩ := hopen htask (by simp)
    exact .inr ⟨_, .tail (.refl σ) hclean hstep, tracks_sending h.leader h.pending h.replica hbuf
      rfl ⟨rfl, hchannel, by rw [hsocket, hinflight]⟩⟩
  | @send frame rest htask =>
    obtain ⟨hphase, hchannel, hsocket⟩ := h.sending _ htask
    obtain ⟨buf', hbuf⟩ := hopen htask (by simp)
    exact .inr ⟨σ, .refl σ, tracks_sending h.leader h.pending h.replica hbuf rfl
      ⟨hphase, hchannel, by rw [hsocket, List.append_assoc, List.singleton_append]⟩⟩
  | sent htask =>
    obtain ⟨hphase, hchannel, hsocket⟩ := h.sending _ htask
    obtain ⟨buf', hbuf⟩ := hopen htask (by simp)
    exact .inr ⟨σ, .refl σ, tracks_streaming h.leader h.pending h.replica hbuf rfl
      ⟨hphase, hchannel, hsocket.trans (List.append_nil _)⟩⟩
  | @recv frame htask hframe =>
    obtain ⟨hphase, hchannel, hsocket⟩ := h.streaming htask
    obtain ⟨buf', hbuf⟩ := hopen htask (by simp)
    have hdrop : c.log.drop c.next = frame :: c.log.drop (c.next + 1) := by
      obtain ⟨hlt, heq⟩ := List.getElem?_eq_some_iff.mp hframe
      rw [List.drop_eq_getElem_cons hlt, heq]
    have hstep : d.step σ .forward = some { σ with
        channel := c.log.drop (c.next + 1), socket := σ.socket ++ [frame] } := by
      simp only [Deployment.step, hphase, hchannel, hdrop]
    exact .inr ⟨_, .tail (e := .forward) (.refl σ) trivial hstep, tracks_streaming h.leader
      h.pending h.replica hbuf htask ⟨hphase, rfl, by rw [hsocket]⟩⟩
  | lag htask => exact .inl ⟨rfl, hopen htask (by simp)⟩
  | leaderEnd =>
    by_cases hreading : ∃ buf, c.follower = .reading buf
    · exact .inl ⟨rfl, hreading⟩
    · rw [not_exists] at hreading
      exact .inr ⟨σ, .refl σ, tracks_idle h.leader h.pending h.replica (.inl rfl)
        fun _ => h.idle (.inl hreading)⟩
  | @followerRead n envAt buf r gs hs hfollower hsplit hdrain hrest =>
    -- Nothing is executed before the snapshot, for nothing was sent.
    have hquiet (hfresh : c.Fresh) : σ.replica =
        applyLog d.replica Deployment.nowhere envAt 0 gs c.replica := by
      obtain ⟨unsent, hsent⟩ := inv.sent
      have hnil := (hsent.fresh hfresh).2.1
      rw [hsplit, List.append_eq_nil_iff] at hnil
      rw [hnil.1, h.replica]
      rfl
    cases htask : c.task with
    | closed => exact .inl ⟨rfl, r, rfl⟩
    | accepting buf' =>
      exact .inr ⟨σ, .refl σ, tracks_idle h.leader h.pending (hquiet (inv.accepting buf' htask).1)
        (.inr ⟨buf', rfl⟩) fun _ => h.idle (.inr ⟨buf', htask⟩)⟩
    | subscribed =>
      exact .inr ⟨σ, .refl σ, tracks_subscribed h.leader h.pending
        (hquiet (inv.subscribed htask)) rfl rfl (h.subscribed htask)⟩
    | sending rest =>
      obtain ⟨hphase, hchannel, hsocket⟩ := h.sending rest htask
      have hsocket' : σ.socket = gs ++ (hs ++ rest) := by
        rw [hsocket, hsplit, List.append_assoc]
      exact .inr ⟨_, run_apply envAt (i := 0) hsocket', tracks_sending h.leader h.pending
        (by rw [h.replica]) rfl rfl ⟨hphase, hchannel, rfl⟩⟩
    | streaming =>
      obtain ⟨hphase, hchannel, hsocket⟩ := h.streaming htask
      have hsocket' : σ.socket = gs ++ hs := hsocket.trans hsplit
      exact .inr ⟨_, run_apply envAt (i := 0) hsocket', tracks_streaming h.leader h.pending
        (by rw [h.replica]) rfl rfl ⟨hphase, hchannel, rfl⟩⟩
  | followerEnd => exact absurd hpast (List.append_ne_nil_of_right_ne_nil _ (List.cons_ne_nil _ _))

/-- A step that leaves no earlier attempts had none before it. -/
theorem past_eq_nil (hmove : Move d c e c') (hpast : c'.past = []) : c.past = [] := by
  cases hmove with
  | followerEnd => exact (List.append_eq_nil_iff.mp hpast).1
  | _ => exact hpast

/-- A first attempt that is not broken is tracked by a run of the session. -/
theorem tracks_of_run (h : Runs.Run (step d) (RunsClean d) (start s ∅) c) (hpast : c.past = []) :
    c.IsBroken ∨ ∃ σ, Runs.Run d.step d.Clean (.start s) σ ∧ c.Tracks σ := by
  refine (h.invariant (I := fun c => Inv c ∧ (c.past = [] →
    c.IsBroken ∨ ∃ σ, Runs.Run d.step d.Clean (.start s) σ ∧ c.Tracks σ)) ?_
      ⟨.start s ∅, fun _ => .inr ⟨_, .refl _, ?_⟩⟩).2 hpast
  · rintro c e c' ⟨inv, hc⟩ hok hstep
    have hmove := inv.move hstep
    refine ⟨inv.step hok.fits hmove, fun hpast => ?_⟩
    rcases hc (past_eq_nil hmove hpast) with hbroken | ⟨σ, hrun, htracks⟩
    · exact .inl (hbroken.move hmove hpast)
    · rcases htracks.move inv hok hmove hpast with hbroken | ⟨σ', hrun', htracks'⟩
      · exact .inl hbroken
      · exact .inr ⟨σ', hrun.trans hrun', htracks'⟩
  · exact ⟨rfl, rfl, rfl, fun _ => ⟨rfl, rfl, rfl⟩, nofun, nofun, nofun⟩

/-- With nothing on the way for the replica there is nothing on the way in full-sync. -/
theorem Tracks.settled (h : c.Tracks σ) (inv : Inv c) (hsettled : c.Settled) : σ.Settled := by
  obtain ⟨hphase, hchannel, hsocket⟩ := h.streaming hsettled.task
  have hpending : σ.pending = none := by
    rw [← Option.toList_eq_nil_iff, h.pending, hsettled.pending]
  refine ⟨hphase, hpending, ?_, hsocket.trans (hsettled.executed inv).1⟩
  rw [hchannel, hsettled.received, List.drop_length]

end ReplicaLink

/-- On its first connection an empty replica does what full-sync does, until the connection breaks,
if each write is broadcast before the next : so if the snapshot is clean and nothing is on the way,
it has the contents of the leader, though it reads the frames in pieces and the write stream may
forget. -/
theorem replica_link_refines (d : Deployment) {s : Store} (hs : s.NoExpiry) {c : ReplicaLink}
    (h : Runs.Run (ReplicaLink.step d) (ReplicaLink.RunsClean d) (.start s ∅) c)
    (hpast : c.past = []) :
    (c.IsBroken ∨ ∃ σ, Runs.Run d.step d.Clean (.start s) σ ∧ c.Tracks σ) ∧
      (c.Settled → c.replica.contents = c.leader.contents) := by
  have hfits : Runs.Run (ReplicaLink.step d) ReplicaLink.SendsFit (.start s ∅) c :=
    h.mono fun _ _ => ReplicaLink.RunsClean.fits
  refine ⟨ReplicaLink.tracks_of_run h hpast, fun hsettled => ?_⟩
  rcases ReplicaLink.tracks_of_run h hpast with hbroken | ⟨σ, hrun, htracks⟩
  · cases hbroken.1.symm.trans hsettled.task
  · have inv : d.Inv σ := hrun.invariant
      (fun _ _ _ h hclean hstep => Deployment.inv_step h hclean hstep) (Deployment.inv_start hs)
    obtain ⟨hphase, hpending, hchannel, hsocket⟩ :=
      htracks.settled (ReplicaLink.inv_of_run hfits) hsettled
    have hsame := inv.streaming hphase
    rw [SyncState.doubled, hsocket, hchannel, hpending] at hsame
    rw [← htracks.replica, ← htracks.leader]
    exact hsame.contents

section Connecting

/-- The snapshot is taken of an empty store, with nothing on the way. -/
def ReplicaLink.sendsClean (c : ReplicaLink) : LinkEvent → Bool
  | .write _ frame => frame = incrKey && c.pending.isEmpty
  | .snapshot env => c.snapshotFrames env = [] && c.leader.isEmpty && c.log.isEmpty &&
    c.pending.isEmpty
  | _ => true

theorem ReplicaLink.clean_of_sendsClean {c : ReplicaLink} {e : LinkEvent}
    (h : c.sendsClean e = true) : RunsClean smallDeployment c e := by
  cases e with
  | write env frame =>
    obtain ⟨rfl, hpending⟩ : frame = incrKey ∧ c.pending = [] := by simpa [sendsClean] using h
    exact ⟨fits_of_sendsSmall (c := c) (e := .write env incrKey) (by simp [sendsSmall]),
      hpending, by decide⟩
  | snapshot env =>
    simp only [sendsClean, Bool.and_eq_true, decide_eq_true_eq, List.isEmpty_iff] at h
    obtain ⟨⟨⟨hframes, hempty⟩, hlog⟩, hpending⟩ := h
    refine ⟨by simp [hframes], by rw [hlog, hpending, List.drop_nil]; rfl, fun k e he => ?_⟩
    rw [ExtTreeMap.isEmpty_iff.mp hempty] at he
    simp at he
  | _ => trivial

/-- The follower reads `INCR k` in two pieces. -/
def incrInPieces : List LinkEvent :=
  [.connect, .leaderRead 9, .leaderRead 5, .snapshot (.plain 0), .send,
    .write (.plain 0) incrKey, .broadcast 0, .recv, .followerRead 10 fun _ => .plain 0,
    .followerRead 11 fun _ => .plain 0]

theorem replica_link_refines_incr : ∃ c : ReplicaLink, c.Settled ∧
    stringAt c.leader "k" = some (Utf8.toBytes "1") ∧
      (∃ σ, Runs.Run smallDeployment.step smallDeployment.Clean (.start ∅) σ ∧ c.Tracks σ) ∧
        c.replica.contents = c.leader.contents := by
  have hrun : (Runs.exec (ReplicaLink.step smallDeployment) (fun c e => c.sendsClean e = true)
      (.start ∅ ∅) incrInPieces).any (fun c => c.isSettled && c.past.isEmpty &&
        stringAt c.leader "k" = some (Utf8.toBytes "1")) = true := by
    decide +kernel
  obtain ⟨c, hc, hp⟩ := Runs.exists_run_of_exec hrun
  rw [Bool.and_eq_true, Bool.and_eq_true, decide_eq_true_eq, List.isEmpty_iff] at hp
  have hsettled := ReplicaLink.settled_of_isSettled hp.1.1
  obtain ⟨hbroken | htracks, hsame⟩ := replica_link_refines smallDeployment Store.same_empty.left
    (hc.mono fun _ _ => ReplicaLink.clean_of_sendsClean) hp.1.2
  · cases hbroken.1.symm.trans hsettled.task
  · exact ⟨c, hsettled, hp.2, htracks, hsame hsettled⟩

end Connecting

end LoonyRedis
