import LoonyRedis.RaftNode
import LoonyRedis.Wire

/-!
# Raft messages on the wire

A Raft message travels as an array of bulk strings : a tag, the fields of its kind, and for
`AppendEntries` the terms and the commands of the entries in turn. Numbers are written in
decimal, and a command is a bulk string with whatever bytes it has.

`rpc_survives` says that a message that is written is read back, whatever follows it.
-/

namespace LoonyRedis

/-! ## The two translations -/

/-- The term and the command of each entry. -/
def entryFrames : List LogEntry → List Frame
  | [] => []
  | e :: entries => .bulkStr (toString e.term) :: .bulk (some e.command) :: entryFrames entries

/-- A message as a command, its numbers in decimal. -/
def rpcToFrame : RaftRpc → Frame
  | .requestVote term candidateId lastLogIndex lastLogTerm =>
    .command ["RAFT_REQVOTE", toString term, candidateId, toString lastLogIndex,
      toString lastLogTerm]
  | .requestVoteResp term voteGranted =>
    .command ["RAFT_VOTERESP", toString term, if voteGranted then "1" else "0"]
  | .appendEntries term leaderId prevLogIndex prevLogTerm entries leaderCommit =>
    .array (some (["RAFT_APPEND", toString term, leaderId, toString prevLogIndex,
      toString prevLogTerm, toString leaderCommit].map .bulkStr ++ entryFrames entries))
  | .appendEntriesResp term success matchIndex =>
    .command ["RAFT_APPENDRESP", toString term, if success then "1" else "0",
      toString matchIndex]

/-- A `u64` in decimal. -/
def readU64 (cs : List Char) : Option ℕ :=
  let n := match cs with
    | '+' :: ds => Text.parseDigits ds
    | ds => Text.parseDigits ds
  n.filter fun n => n < 2 ^ 64

/-- The argument `i` as a number of 64 bits. -/
def parseU64 (args : List Frame) (i : ℕ) : Option ℕ :=
  (bulkAsStr args i).bind fun s => readU64 (Text.trim s.toList)

/-- The entries from position `i` on. A single argument at the end is ignored. -/
def readEntries (args : List Frame) (i : ℕ) : Option (List LogEntry) :=
  if i + 1 < args.length then do
    let term ← parseU64 args i
    let command ← bulkBytes args (i + 1)
    let entries ← readEntries args (i + 2)
    return ⟨term, command⟩ :: entries
  else some []
termination_by args.length - i

/-- The message that a command spells, if its arguments can be read. -/
def frameToRpc : Frame → Option RaftRpc
  | .array (some args) => do
    let tag ← bulkAsStr args 0
    match tag with
    | "RAFT_REQVOTE" =>
      return .requestVote (← parseU64 args 1) (← bulkAsStr args 2) (← parseU64 args 3)
        (← parseU64 args 4)
    | "RAFT_VOTERESP" =>
      return .requestVoteResp (← parseU64 args 1) ((← bulkAsStr args 2) = "1")
    | "RAFT_APPEND" =>
      let term ← parseU64 args 1
      let leaderId ← bulkAsStr args 2
      let prevLogIndex ← parseU64 args 3
      let prevLogTerm ← parseU64 args 4
      let leaderCommit ← parseU64 args 5
      let entries ← readEntries args 6
      return .appendEntries term leaderId prevLogIndex prevLogTerm entries leaderCommit
    | "RAFT_APPENDRESP" =>
      return .appendEntriesResp (← parseU64 args 1) ((← bulkAsStr args 2) = "1")
        (← parseU64 args 3)
    | _ => none
  | _ => none

/-! ## Messages that there are -/

/-- The bytes of an entry : a number, and a reference to its command. -/
def logEntrySize : ℕ := 40

/-- The number fits into 64 bits. -/
def IsU64 (n : ℕ) : Prop := n < 2 ^ 64

/-- An id or a command is no longer than what fits in memory. -/
def FitsMemory (b : Bytes) : Prop := (b.length : ℤ) ≤ Text.i64Max

/-- What the types of a message ensure : 64-bit numbers, and lengths that fit in memory. -/
def RaftRpc.Fits : RaftRpc → Prop
  | .requestVote term candidateId lastLogIndex lastLogTerm =>
    IsU64 term ∧ FitsMemory (Utf8.toBytes candidateId) ∧ IsU64 lastLogIndex ∧ IsU64 lastLogTerm
  | .requestVoteResp term _ => IsU64 term
  | .appendEntries term leaderId prevLogIndex prevLogTerm entries leaderCommit =>
    IsU64 term ∧ FitsMemory (Utf8.toBytes leaderId) ∧ IsU64 prevLogIndex ∧ IsU64 prevLogTerm ∧
      IsU64 leaderCommit ∧ ((logEntrySize * entries.length : ℕ) : ℤ) ≤ Text.i64Max ∧
      ∀ e ∈ entries, IsU64 e.term ∧ FitsMemory e.command
  | .appendEntriesResp term _ matchIndex => IsU64 term ∧ IsU64 matchIndex

/-! ## Reading the arguments -/

section Reading

variable {n i : ℕ} {args : List Frame}

/-- A number reads back as itself. -/
theorem readU64_toString (hn : IsU64 n) : readU64 (Text.trim (toString n).toList) = some n := by
  have hdigit : ∀ c ∈ Nat.toDigits 10 n, c.isDigit = true := fun c hc =>
    Nat.isDigit_of_mem_toDigits (by decide) (by decide) hc
  have htext : (toString n).toList = Nat.toDigits 10 n := by
    rw [Nat.toString_eq_repr, Nat.toList_repr]
  rw [htext, Text.trim_of_no_whitespace fun c hc => Text.isWhitespace_of_isDigit (hdigit c hc)]
  unfold readU64
  split
  · next ds hds =>
    have hplus : '+' ∈ Nat.toDigits 10 n := by
      rw [hds]
      exact List.mem_cons_self
    exact absurd (hdigit '+' hplus) (by decide)
  · rw [Text.parseDigits_toDigits]
    exact Option.filter_eq_some_iff.mpr ⟨rfl, decide_eq_true hn⟩

/-- A number that is written is read back. -/
theorem parseU64_of_getElem? (h : args[i]? = some (.bulkStr (toString n))) (hn : IsU64 n) :
    parseU64 args i = some n := by
  rw [parseU64, bulkAsStr_of_getElem? h, Option.bind_some, readU64_toString hn]

/-- The entries behind any arguments. -/
theorem readEntries_append : ∀ (entries : List LogEntry) (args : List Frame),
    (∀ e ∈ entries, IsU64 e.term) →
    readEntries (args ++ entryFrames entries) args.length = some entries
  | [], args, _ => by
    rw [readEntries, if_neg (by simp [entryFrames])]
  | e :: entries, args, h => by
    obtain ⟨he, hrest⟩ := List.forall_mem_cons.mp h
    have hargs : args ++ entryFrames (e :: entries) =
        (args ++ [.bulkStr (toString e.term), .bulk (some e.command)]) ++ entryFrames entries := by
      rw [entryFrames, List.append_assoc]
      rfl
    have hterm : parseU64 (args ++ entryFrames (e :: entries)) args.length = some e.term := by
      refine parseU64_of_getElem? ?_ he
      rw [List.getElem?_append_right le_rfl, Nat.sub_self]
      rfl
    have hcommand : bulkBytes (args ++ entryFrames (e :: entries)) (args.length + 1) =
        some e.command := by
      have hone : args.length + 1 - args.length = 1 := Nat.add_sub_cancel_left ..
      rw [bulkBytes, List.getElem?_append_right (Nat.le_add_right _ 1), hone]
      rfl
    have hlen : (args ++ [Frame.bulkStr (toString e.term), .bulk (some e.command)]).length =
        args.length + 2 := List.length_append
    have ih := readEntries_append entries
      (args ++ [.bulkStr (toString e.term), .bulk (some e.command)]) hrest
    rw [hlen, ← hargs] at ih
    rw [readEntries, if_pos (by simp [entryFrames]), hterm, hcommand, ih]
    rfl

end Reading

/-! ## What is read is what was written -/

section Survives

variable {r : RaftRpc} {args : List Frame} {term index logTerm commit : ℕ} {id : NodeId}
  {b : Bool} {entries : List LogEntry}

/-- A frame with the fields of a vote request is read as it. -/
theorem frameToRpc_requestVote (htag : bulkAsStr args 0 = some "RAFT_REQVOTE")
    (hterm : parseU64 args 1 = some term) (hid : bulkAsStr args 2 = some id)
    (hindex : parseU64 args 3 = some index) (hlog : parseU64 args 4 = some logTerm) :
    frameToRpc (.array (some args)) = some (.requestVote term id index logTerm) := by
  simp only [frameToRpc, htag, hterm, hid, hindex, hlog, Option.bind_eq_bind, Option.bind_some]
  rfl

/-- A frame with the fields of a vote response is read as it. -/
theorem frameToRpc_requestVoteResp (htag : bulkAsStr args 0 = some "RAFT_VOTERESP")
    (hterm : parseU64 args 1 = some term)
    (hflag : bulkAsStr args 2 = some (if b then "1" else "0")) :
    frameToRpc (.array (some args)) = some (.requestVoteResp term b) := by
  simp only [frameToRpc, htag, hterm, hflag, Option.bind_eq_bind, Option.bind_some]
  cases b <;> rfl

/-- A frame with the fields of an append request is read as it. -/
theorem frameToRpc_appendEntries (htag : bulkAsStr args 0 = some "RAFT_APPEND")
    (hterm : parseU64 args 1 = some term) (hid : bulkAsStr args 2 = some id)
    (hindex : parseU64 args 3 = some index) (hlog : parseU64 args 4 = some logTerm)
    (hcommit : parseU64 args 5 = some commit) (hentries : readEntries args 6 = some entries) :
    frameToRpc (.array (some args)) =
      some (.appendEntries term id index logTerm entries commit) := by
  simp only [frameToRpc, htag, hterm, hid, hindex, hlog, hcommit, hentries, Option.bind_eq_bind,
    Option.bind_some]
  rfl

/-- A frame with the fields of an append response is read as it. -/
theorem frameToRpc_appendEntriesResp (htag : bulkAsStr args 0 = some "RAFT_APPENDRESP")
    (hterm : parseU64 args 1 = some term)
    (hflag : bulkAsStr args 2 = some (if b then "1" else "0"))
    (hindex : parseU64 args 3 = some index) :
    frameToRpc (.array (some args)) = some (.appendEntriesResp term b index) := by
  simp only [frameToRpc, htag, hterm, hflag, hindex, Option.bind_eq_bind, Option.bind_some]
  cases b <;> rfl

/-- A message is read back from its frame. -/
theorem frameToRpc_rpcToFrame (h : r.Fits) : frameToRpc (rpcToFrame r) = some r := by
  cases r with
  | requestVote term candidateId lastLogIndex lastLogTerm =>
    obtain ⟨hterm, -, hindex, hlog⟩ := h
    exact frameToRpc_requestVote (bulkAsStr_of_getElem? rfl) (parseU64_of_getElem? rfl hterm)
      (bulkAsStr_of_getElem? rfl) (parseU64_of_getElem? rfl hindex)
      (parseU64_of_getElem? rfl hlog)
  | requestVoteResp term voteGranted =>
    exact frameToRpc_requestVoteResp (bulkAsStr_of_getElem? rfl) (parseU64_of_getElem? rfl h)
      (bulkAsStr_of_getElem? rfl)
  | appendEntries term leaderId prevLogIndex prevLogTerm entries leaderCommit =>
    obtain ⟨hterm, -, hindex, hlog, hcommit, -, hentries⟩ := h
    exact frameToRpc_appendEntries (bulkAsStr_of_getElem? rfl) (parseU64_of_getElem? rfl hterm)
      (bulkAsStr_of_getElem? rfl) (parseU64_of_getElem? rfl hindex)
      (parseU64_of_getElem? rfl hlog) (parseU64_of_getElem? rfl hcommit)
      (readEntries_append entries _ fun e he => (hentries e he).1)
  | appendEntriesResp term success matchIndex =>
    obtain ⟨hterm, hindex⟩ := h
    exact frameToRpc_appendEntriesResp (bulkAsStr_of_getElem? rfl)
      (parseU64_of_getElem? rfl hterm) (bulkAsStr_of_getElem? rfl)
      (parseU64_of_getElem? rfl hindex)

end Survives

/-! ## Messages fit in frames -/

section Frames

variable {n : ℕ} {s : String} {words : List String} {entries : List LogEntry} {r : RaftRpc}

/-- A character takes at most four bytes. -/
theorem length_toBytes_le (s : String) : (Utf8.toBytes s).length ≤ 4 * s.toList.length := by
  rw [Utf8.toBytes]
  induction s.toList with
  | nil => exact Nat.zero_le _
  | cons c cs ih =>
    have hc := c.utf8Size_le_four
    rw [List.flatMap_cons, List.length_append, String.length_utf8EncodeChar, List.length_cons]
    omega

/-- A short text, such as a number. -/
theorem fitsMemory_of_short (h : s.toList.length ≤ 20) : FitsMemory (Utf8.toBytes s) := by
  have hle := length_toBytes_le s
  rw [FitsMemory, Text.i64Max]
  omega

/-- A number is a short text. -/
theorem fitsMemory_number (hn : IsU64 n) : FitsMemory (Utf8.toBytes (toString n)) := by
  refine fitsMemory_of_short ?_
  rw [Nat.toString_eq_repr, Nat.toList_repr,
    Nat.length_toDigits_le_iff (by decide) (by decide)]
  exact lt_trans hn (by decide)

/-- A flag is a short text. -/
theorem fitsMemory_flag (b : Bool) : FitsMemory (Utf8.toBytes (if b then "1" else "0")) := by
  cases b <;> exact fitsMemory_of_short (by decide)

/-- An entry takes two frames. -/
theorem length_entryFrames (entries : List LogEntry) :
    (entryFrames entries).length = 2 * entries.length := by
  induction entries with
  | nil => rfl
  | cons e entries ih =>
    rw [entryFrames, List.length_cons, List.length_cons, ih, List.length_cons]
    omega

/-- The frames of the entries are their terms and their commands. -/
theorem mem_entryFrames {f : Frame} (hf : f ∈ entryFrames entries) :
    ∃ e ∈ entries, f = .bulkStr (toString e.term) ∨ f = .bulk (some e.command) := by
  induction entries with
  | nil => exact absurd hf List.not_mem_nil
  | cons e entries ih =>
    rw [entryFrames, List.mem_cons, List.mem_cons] at hf
    obtain hterm | hcommand | hf := hf
    · exact ⟨e, List.mem_cons_self, .inl hterm⟩
    · exact ⟨e, List.mem_cons_self, .inr hcommand⟩
    · obtain ⟨e', he', hor⟩ := ih hf
      exact ⟨e', List.mem_cons_of_mem e he', hor⟩

/-- The items of the frame of a message. -/
theorem mem_items {f : Frame} (hf : f ∈ words.map .bulkStr ++ entryFrames entries) :
    (∃ w ∈ words, f = .bulkStr w) ∨
      ∃ e ∈ entries, f = .bulkStr (toString e.term) ∨ f = .bulk (some e.command) := by
  obtain hf | hf := List.mem_append.mp hf
  · obtain ⟨w, hw, rfl⟩ := List.mem_map.mp hf
    exact .inl ⟨w, hw, rfl⟩
  · exact .inr (mem_entryFrames hf)

/-- Words and entries that fit. -/
theorem fits_items (hwords : ∀ w ∈ words, FitsMemory (Utf8.toBytes w)) (hlen : words.length ≤ 6)
    (hentries : ∀ e ∈ entries, IsU64 e.term ∧ FitsMemory e.command)
    (hsize : ((logEntrySize * entries.length : ℕ) : ℤ) ≤ Text.i64Max) :
    (Frame.array (some (words.map .bulkStr ++ entryFrames entries))).Fits := by
  rw [Frame.Fits, allFit_iff]
  constructor
  · rw [List.length_append, List.length_map, length_entryFrames]
    rw [logEntrySize, Text.i64Max] at hsize
    rw [Text.i64Max]
    omega
  · intro f hf
    obtain ⟨w, hw, rfl⟩ | ⟨e, he, rfl | rfl⟩ := mem_items hf
    · rw [Frame.bulkStr, Frame.Fits]
      exact hwords w hw
    · rw [Frame.bulkStr, Frame.Fits]
      exact fitsMemory_number (hentries e he).1
    · rw [Frame.Fits]
      exact (hentries e he).2

/-- A command of a few short words fits. -/
theorem fits_command (hwords : ∀ w ∈ words, FitsMemory (Utf8.toBytes w))
    (hlen : words.length ≤ 6) : (Frame.command words).Fits := by
  have hfits := @fits_items words [] hwords hlen (fun _ h => absurd h List.not_mem_nil) (by decide)
  rwa [entryFrames, List.append_nil] at hfits

theorem oneLine_items :
    (Frame.array (some (words.map .bulkStr ++ entryFrames entries))).OneLine := by
  rw [Frame.OneLine, allOneLine_iff]
  intro f hf
  obtain ⟨w, -, rfl⟩ | ⟨e, -, rfl | rfl⟩ := mem_items hf <;> simp [Frame.bulkStr, Frame.OneLine]

theorem oneLine_command : (Frame.command words).OneLine := by
  have hline := @oneLine_items words []
  rwa [entryFrames, List.append_nil] at hline

/-- The frame of a message that fits can be sent. -/
theorem fits_rpcToFrame (h : r.Fits) : (rpcToFrame r).Fits := by
  have htag : ∀ tag ∈ ["RAFT_REQVOTE", "RAFT_VOTERESP", "RAFT_APPEND", "RAFT_APPENDRESP"],
      FitsMemory (Utf8.toBytes tag) := fun tag htag =>
    fitsMemory_of_short ((by decide : ∀ tag ∈ ["RAFT_REQVOTE", "RAFT_VOTERESP", "RAFT_APPEND",
      "RAFT_APPENDRESP"], tag.toList.length ≤ 20) tag htag)
  cases r with
  | requestVote term candidateId lastLogIndex lastLogTerm =>
    obtain ⟨hterm, hid, hindex, hlog⟩ := h
    refine fits_command ?_ (by simp)
    simp only [List.forall_mem_cons]
    exact ⟨htag _ (by decide), fitsMemory_number hterm, hid, fitsMemory_number hindex,
      fitsMemory_number hlog, List.forall_mem_nil _⟩
  | requestVoteResp term voteGranted =>
    refine fits_command ?_ (by simp)
    simp only [List.forall_mem_cons]
    exact ⟨htag _ (by decide), fitsMemory_number h, fitsMemory_flag voteGranted,
      List.forall_mem_nil _⟩
  | appendEntries term leaderId prevLogIndex prevLogTerm entries leaderCommit =>
    obtain ⟨hterm, hid, hindex, hlog, hcommit, hsize, hentries⟩ := h
    refine fits_items ?_ (by simp) hentries hsize
    simp only [List.forall_mem_cons]
    exact ⟨htag _ (by decide), fitsMemory_number hterm, hid, fitsMemory_number hindex,
      fitsMemory_number hlog, fitsMemory_number hcommit, List.forall_mem_nil _⟩
  | appendEntriesResp term success matchIndex =>
    obtain ⟨hterm, hindex⟩ := h
    refine fits_command ?_ (by simp)
    simp only [List.forall_mem_cons]
    exact ⟨htag _ (by decide), fitsMemory_number hterm, fitsMemory_flag success,
      fitsMemory_number hindex, List.forall_mem_nil _⟩

/-- The frame of a message has no line of its own with a line feed. -/
theorem oneLine_rpcToFrame (r : RaftRpc) : (rpcToFrame r).OneLine := by
  cases r with
  | requestVote => exact oneLine_command
  | requestVoteResp => exact oneLine_command
  | appendEntries => exact oneLine_items
  | appendEntriesResp => exact oneLine_command

end Frames

/-- A message that is sent is read from the bytes, whatever follows. -/
theorem rpc_survives (r : RaftRpc) (h : r.Fits) (rest : Bytes) :
    ∃ f, parseFrame (serializeFrame (rpcToFrame r) ++ rest) =
        .ok (some (f, (serializeFrame (rpcToFrame r)).length)) ∧
      frameToRpc f = some r := by
  have hvalue := wireValue_writeFrame (fits_rpcToFrame h) (oneLine_rpcToFrame r) rest
  have hparse : parseFrame (serializeFrame (rpcToFrame r) ++ rest) =
      .ok (some (rpcToFrame r, (serializeFrame (rpcToFrame r)).length)) :=
    parseFrame_eq_some_iff.mpr ⟨serializeFrame (rpcToFrame r), rest, rfl, rfl, hvalue⟩
  exact ⟨rpcToFrame r, hparse, frameToRpc_rpcToFrame h⟩

/-- An empty command and one with a line end in it. -/
def twoEntries : RaftRpc :=
  .appendEntries 3 "127.0.0.1:7001" 2 (2 ^ 64 - 1) [⟨3, []⟩, ⟨3, [0x0D, 0x0A, 0xFF]⟩] 1

theorem twoEntries_survives : ∃ f, parseFrame (serializeFrame (rpcToFrame twoEntries) ++ [0x2A]) =
    .ok (some (f, (serializeFrame (rpcToFrame twoEntries)).length)) ∧
      frameToRpc f = some twoEntries := by
  have hfits : twoEntries.Fits := by
    simp only [twoEntries, RaftRpc.Fits, IsU64, FitsMemory, List.forall_mem_cons]
    decide
  exact rpc_survives twoEntries hfits [0x2A]

end LoonyRedis
