import LoonyRedis.Lib.Text
import LoonyRedis.Lib.Utf8

/-!
# RESP values

A `Frame` is a value of the RESP2 protocol, sent or received over the wire. Requests are
arrays of bulk strings; the handlers read their arguments with `bulkBytes`, `bulkAsStr`
and `bulkAsI64`, which give nothing for an argument that is not a bulk string.
-/

namespace LoonyRedis

/-- A RESP2 value. A missing payload encodes as a null bulk string or a null array. -/
inductive Frame where
  | simpleString (s : String)
  | error (msg : String)
  | integer (n : ℤ)
  | bulk (b : Option Bytes)
  | array (items : Option (List Frame))

namespace Frame

mutual

/-- Equality of frames, by structure. -/
def decEq : (f g : Frame) → Decidable (f = g)
  | .simpleString s, .simpleString t => decidable_of_iff (s = t) (by simp)
  | .error s, .error t => decidable_of_iff (s = t) (by simp)
  | .integer m, .integer n => decidable_of_iff (m = n) (by simp)
  | .bulk b, .bulk c => decidable_of_iff (b = c) (by simp)
  | .array none, .array none => isTrue rfl
  | .array (some l), .array (some m) =>
    match decEqList l m with
    | isTrue h => isTrue (by rw [h])
    | isFalse h => isFalse (by simpa using h)
  | .array none, .array (some _) => isFalse (by simp)
  | .array (some _), .array none => isFalse (by simp)
  | .simpleString _, .error _ | .simpleString _, .integer _ | .simpleString _, .bulk _
  | .simpleString _, .array _ | .error _, .simpleString _ | .error _, .integer _
  | .error _, .bulk _ | .error _, .array _ | .integer _, .simpleString _
  | .integer _, .error _ | .integer _, .bulk _ | .integer _, .array _
  | .bulk _, .simpleString _ | .bulk _, .error _ | .bulk _, .integer _ | .bulk _, .array _
  | .array _, .simpleString _ | .array _, .error _ | .array _, .integer _
  | .array _, .bulk _ => isFalse (by simp)

/-- Equality of lists of frames, one after the other. -/
def decEqList : (l m : List Frame) → Decidable (l = m)
  | [], [] => isTrue rfl
  | [], _ :: _ => isFalse (by simp)
  | _ :: _, [] => isFalse (by simp)
  | f :: l, g :: m =>
    match decEq f g, decEqList l m with
    | isTrue hf, isTrue hl => isTrue (by rw [hf, hl])
    | isFalse hf, _ => isFalse (by simp [hf])
    | _, isFalse hl => isFalse (by simp [hl])

end

/-- Frames are compared, so that replies can be computed and checked. -/
instance : DecidableEq Frame := decEq

/-- The reply `OK`. -/
def ok : Frame := .simpleString "OK"

/-- The reply to `PING`. -/
def pong : Frame := .simpleString "PONG"

/-- The null bulk string, for what is missing. -/
def nullBulk : Frame := .bulk none

/-- A text as a bulk string. -/
def bulkStr (s : String) : Frame := .bulk (some (Utf8.toBytes s))

/-- The array without elements. -/
def emptyArray : Frame := .array (some [])
/-- A command, as its words. -/
def command (words : List String) : Frame := .array (some (words.map bulkStr))
/-- An array of bulk strings. -/
def bulks (bs : List Bytes) : Frame := .array (some (bs.map fun b => .bulk (some b)))

theorem bulks_injective : Function.Injective bulks := by
  intro q r h
  have hmap := Option.some.inj (Frame.array.inj h)
  exact List.map_injective_iff.mpr (fun a b hab => Option.some.inj (Frame.bulk.inj hab)) hmap

/-- An integer reply of 1 or 0. -/
def flag (b : Bool) : Frame := .integer (if b then 1 else 0)

/-- Whether a frame is an error reply. -/
def isError : Frame → Bool
  | .error _ => true
  | _ => false

/-- The payload of a bulk string. -/
def payload : Frame → Option Bytes
  | .bulk b => b
  | _ => none

@[simp] theorem isError_error (msg : String) : (Frame.error msg).isError = true := rfl
@[simp] theorem isError_simpleString (s : String) : (simpleString s).isError = false := rfl
@[simp] theorem isError_integer (n : ℤ) : (integer n).isError = false := rfl
@[simp] theorem isError_bulk (b : Option Bytes) : (bulk b).isError = false := rfl
@[simp] theorem isError_array (l : Option (List Frame)) : (array l).isError = false := rfl
@[simp] theorem isError_ok : ok.isError = false := rfl
@[simp] theorem isError_nullBulk : nullBulk.isError = false := rfl
@[simp] theorem isError_bulkStr (s : String) : (bulkStr s).isError = false := rfl
@[simp] theorem isError_bulks (bs : List Bytes) : (bulks bs).isError = false := rfl
@[simp] theorem isError_flag (b : Bool) : (flag b).isError = false := rfl

end Frame

/-! ## Reading the arguments of a request -/

/-- The payload of the argument `i`, if it is a bulk string. -/
def bulkBytes (args : List Frame) (i : ℕ) : Option Bytes :=
  args[i]?.bind Frame.payload

/-- The argument `i` as a text; bytes that are not UTF-8 are replaced. -/
def bulkAsStr (args : List Frame) (i : ℕ) : Option String :=
  (bulkBytes args i).map Utf8.lossy

/-- The argument `i` as an integer of 64 bits, with white space around it. -/
def bulkAsI64 (args : List Frame) (i : ℕ) : Option Text.I64 :=
  (bulkBytes args i).bind fun b => Text.parseI64 (Text.trim (Utf8.lossy b).toList)

theorem bulkAsStr_of_getElem? {args : List Frame} {i : ℕ} {s : String}
    (h : args[i]? = some (.bulkStr s)) : bulkAsStr args i = some s := by
  rw [bulkAsStr, bulkBytes, h, Option.bind_some]
  exact congrArg some (Utf8.lossy_toBytes s)

/-- The integer that an argument spells, whether it fits into 64 bits or not. -/
def integerArg (args : List Frame) (i : ℕ) : Option ℤ :=
  (bulkBytes args i).bind fun b => Text.parseInt (Text.trim (Utf8.lossy b).toList)

theorem bulkAsI64_eq (args : List Frame) (i : ℕ) :
    bulkAsI64 args i = (integerArg args i).bind Text.fits := by
  rw [bulkAsI64, integerArg, Option.bind_assoc]
  simp only [Text.parseI64_eq]

/-- The bulk strings among `args[from..]`. -/
def bulksFrom (args : List Frame) (start : ℕ) : List Bytes :=
  (args.drop start).filterMap Frame.payload

/-- The bulk strings among `args[from..]`, as strings. -/
def multiKeySetArgs (args : List Frame) (start : ℕ) : List String :=
  (bulksFrom args start).map Utf8.lossy

/-- The error for a wrong number of arguments. -/
def wrongNumArgs (cmd : String) : Frame :=
  .error s!"ERR wrong number of arguments for '{cmd}' command"

end LoonyRedis
