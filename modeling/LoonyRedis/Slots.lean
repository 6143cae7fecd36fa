import LoonyRedis.Frame
import Mathlib.Data.List.Destutter
import Mathlib.Data.List.Sort
import Mathlib.Order.Lattice
import Mathlib.Data.String.Basic

/-!
# Hash slots and the routing table

Every key belongs to one of 16384 slots, the CRC16 of its hash tag. A `ClusterConfig` is
the sorted list of the nodes of the cluster, as one of them sees it; the slots are cut
into as many ranges of equal length as there are nodes, in the order of the list, and the
last node takes the remainder. The table is thus a function of the node list alone
(`slotToNode`), and all nodes with the same list agree on the owner of every slot.
-/

namespace LoonyRedis

/-- The number of slots of a cluster. -/
def numSlots : ℕ := 16384

/-! ## CRC16 -/

/-- One bit of the division. -/
def crc16Bit (crc : UInt16) : UInt16 :=
  if crc &&& 0x8000 ≠ 0 then (crc <<< 1) ^^^ 0x1021 else crc <<< 1

/-- One byte of the division, from its high bit. -/
def crc16Byte (crc : UInt16) (byte : UInt8) : UInt16 :=
  crc16Bit^[8] (crc ^^^ (byte.toUInt16 <<< 8))

/-- The CRC16 of the XMODEM variant. -/
def crc16 (data : Bytes) : UInt16 := data.foldl crc16Byte 0

/-- What is hashed of a key : the text between the first opening brace and the next
closing one, if it is not empty, and the whole key otherwise. -/
def hashTag (key : Bytes) : Bytes :=
  match key.findIdx? (· = 0x7B) with
  | none => key
  | some op =>
    match (key.drop (op + 1)).findIdx? (· = 0x7D) with
    | none => key
    | some close => if close = 0 then key else (key.drop (op + 1)).take close

/-- The slot of a key. -/
def slotForKey (key : Bytes) : ℕ := (crc16 (hashTag key)).toNat % numSlots

theorem slotForKey_lt (key : Bytes) : slotForKey key < numSlots := Nat.mod_lt _ (by decide)

example : slotForKey (Utf8.toBytes "foo") = 12182 := by decide +kernel

/-! ## The routing table -/

/-- The node list of a cluster, and the index of this node in it. -/
structure ClusterConfig where
  nodes : List String
  myIndex : ℕ
  deriving DecidableEq

/-- The index of the owner of `slot` among `n` nodes : the ranges have `numSlots / n` slots
each, and what remains belongs to the last node. -/
def slotTable (n slot : ℕ) : ℕ :=
  let base := numSlots / n
  if slot < base * n then min (slot / base) (n - 1) else n - 1

theorem slotTable_lt {n slot : ℕ} (hn : 0 < n) : slotTable n slot < n := by
  simp only [slotTable]
  split <;> omega

/-- Sorted, without repetition. -/
def sortNodes (nodes : List String) : List String :=
  (nodes.insertionSort (· ≤ ·)).destutter (· ≠ ·)

namespace ClusterConfig

/-- The configuration of the node `myAddr` in a cluster of `nodes`. A range of no slots,
for more nodes than slots, is a panic. -/
def new (nodes : List String) (myAddr : String) : Except String ClusterConfig :=
  let nodes := sortNodes nodes
  if nodes = [] then .error "cluster must have at least one node"
  else match nodes.findIdx? (· = myAddr) with
    | none => .error s!"--cluster-self {myAddr} not found in --cluster-nodes"
    | some i =>
      if numSlots < nodes.length then .error "chunk size must be non-zero"
      else .ok ⟨nodes, i⟩

/-- The index of the owner of a slot. -/
def slotToNode (cfg : ClusterConfig) (slot : ℕ) : ℕ := slotTable cfg.nodes.length slot

/-- The address of this node. -/
def myAddr (cfg : ClusterConfig) : String := cfg.nodes.getD cfg.myIndex ""

/-- Whether this node owns a slot. -/
def isMine (cfg : ClusterConfig) (slot : ℕ) : Bool := cfg.slotToNode slot = cfg.myIndex

/-- The address of the owner of a slot. -/
def nodeForSlot (cfg : ClusterConfig) (slot : ℕ) : String :=
  cfg.nodes.getD (cfg.slotToNode slot) ""

/-- A routing table without a node of its own. -/
def forRouting (nodes : List String) : ClusterConfig := ⟨sortNodes nodes, 0⟩

/-- The slots of this node, in increasing order. -/
def mySlots (cfg : ClusterConfig) : List ℕ :=
  (List.range numSlots).filter fun s => cfg.slotToNode s = cfg.myIndex

/-- The slots of this node that another node owns under `newCfg`, by that node. -/
def slotsToSend (cfg newCfg : ClusterConfig) (target : String) : List ℕ :=
  cfg.mySlots.filter fun s => newCfg.nodeForSlot s = target ∧ target ≠ cfg.myAddr

/-- The nodes that receive slots of this node. -/
def sendTargets (cfg newCfg : ClusterConfig) : List String :=
  ((cfg.mySlots.map newCfg.nodeForSlot).filter (· ≠ cfg.myAddr)).dedup

/-- Consecutive slots with one owner, from a list of slots in increasing order. -/
def slotRanges (owner : ℕ → ℕ) (i : ℕ) : ℕ → Option ℕ → List ℕ → List (ℕ × ℕ)
  | last, some s, [] => [(s, last)]
  | _, none, [] => []
  | last, start, slot :: slots =>
    if owner slot = i then slotRanges owner i last (start.orElse fun _ => some slot) slots
    else match start with
      | some s => (s, slot - 1) :: slotRanges owner i last none slots
      | none => slotRanges owner i last none slots

/-- The ranges of slots of one node. -/
def slotRangesFor (cfg : ClusterConfig) (i : ℕ) : List (ℕ × ℕ) :=
  slotRanges cfg.slotToNode i (numSlots - 1) none (List.range numSlots)

end ClusterConfig

/-- The id of a node : the CRC16 of its address in decimal, padded to 40 digits. -/
def nodeId (addr : String) : String :=
  let digits := toString (crc16 (Utf8.toBytes addr)).toNat
  String.ofList (List.replicate (40 - digits.length) '0') ++ digits

/-! ## The slot of a command -/

/-- The slot of the keys of a command, if they have one in common. -/
inductive CommandSlot where
  | slot (s : ℕ)
  | crossSlot
  | none
  deriving DecidableEq

/-- The commands with one key, their first argument. -/
def singleKeyCommands : List String :=
  ["GET", "SET", "SETNX", "GETSET", "APPEND", "STRLEN",
    "INCR", "INCRBY", "DECR", "DECRBY",
    "TYPE", "EXPIRE", "PEXPIRE", "TTL", "PTTL", "PERSIST",
    "LPUSH", "RPUSH", "LPOP", "RPOP", "LLEN", "LRANGE", "LINDEX",
    "LSET", "LINSERT", "LREM", "LTRIM",
    "HSET", "HMSET", "HGET", "HMGET", "HGETALL", "HDEL",
    "HLEN", "HEXISTS", "HKEYS", "HVALS", "HSETNX", "HINCRBY", "HINCRBYFLOAT",
    "SADD", "SMEMBERS", "SISMEMBER", "SREM", "SCARD", "SRANDMEMBER", "SPOP",
    "ZADD", "ZSCORE", "ZRANK", "ZREVRANK", "ZCARD", "ZCOUNT",
    "ZINCRBY", "ZREM", "ZRANGE", "ZREVRANGE",
    "ZRANGEBYSCORE", "ZREVRANGEBYSCORE",
    "ZPOPMIN", "ZPOPMAX", "ZREMRANGEBYRANK", "ZREMRANGEBYSCORE"]

/-- The slot of the argument `idx`. -/
def singleKeySlot (args : List Frame) (idx : ℕ) : CommandSlot :=
  match bulkBytes args idx with
  | some k => .slot (slotForKey k)
  | none => .none

/-- The slots of the bulk strings at `start`, `start + stride`, and so on. -/
def strideSlots (args : List Frame) (start stride : ℕ) : List ℕ :=
  (List.range args.length).filterMap fun i =>
    if start ≤ i ∧ (i - start) % stride = 0 then (bulkBytes args i).map slotForKey else none

/-- The slot that the keys at `start`, `start + stride` and so on share. -/
def allSameSlot (args : List Frame) (start stride : ℕ) : CommandSlot :=
  match strideSlots args start stride with
  | [] => .none
  | s :: slots => if slots.all (· = s) then .slot s else .crossSlot

/-- The slot of a command. A command that is not listed, such as `LMOVE` or `SUNION`, has none
and is served where it arrives. -/
def commandSlot (cmd : String) (args : List Frame) : CommandSlot :=
  if cmd ∈ singleKeyCommands then singleKeySlot args 1
  else if cmd ∈ ["DEL", "UNLINK", "EXISTS", "MGET"] then allSameSlot args 1 1
  else if cmd ∈ ["MSET", "MSETNX"] then allSameSlot args 1 2
  else .none

end LoonyRedis
