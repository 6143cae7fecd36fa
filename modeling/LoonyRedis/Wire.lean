import LoonyRedis.Frame
import LoonyRedis.Lib.Incremental

/-!
# Frames on the wire

The RESP2 encoding of frames, and the parser that every reader of the program uses on a
buffer that grows : clients' connections, the replication stream and the append-only file.
`parseFrame` returns a frame with the number of bytes it took, nothing if the buffer ends
too early, or an error. A line ends at the first CR LF; a bulk string is as long as its
length line says, whatever its bytes are, and the two bytes after it are not looked at.

`parseFrame_writeFrame` is the round trip, `stable_parseValue` says that bytes which arrive
later do not change what was decided, and `parseValue_ne_tooDeep` that the recursion ends.
-/

namespace LoonyRedis

/-! ## The parser -/

/-- A parser of bytes with a message for invalid ones. -/
abbrev WireParser (α : Type) := Parser UInt8 String α

/-- The bytes up to the first CR LF, and those after it. -/
def splitLine : Bytes → Option (Bytes × Bytes)
  | 0x0D :: 0x0A :: r => some ([], r)
  | x :: b => (splitLine b).map fun p => (x :: p.1, p.2)
  | [] => none

/-- Read bytes up to, and consuming, the next CR LF. -/
def readLine : WireParser Bytes := fun b =>
  match splitLine b with
  | some (line, r) => .ok (line, r)
  | none => .error .incomplete

/-- An ASCII decimal integer. -/
def parseInt (b : Bytes) : Option Text.I64 :=
  (Utf8.fromUtf8 b).bind fun s => Text.parseI64 (Text.trim s.toList)

/-- How bytes are printed in a message. -/
def debugBytes (b : Bytes) : String :=
  "[" ++ ", ".intercalate (b.map fun x => toString x.toNat) ++ "]"

/-- A line with an integer; the error names what was expected. -/
def readInt (what : String) : WireParser Text.I64 := do
  let line ← readLine
  match parseInt line with
  | some n => return n
  | none => throw (.invalid s!"invalid {what}: {debugBytes line}")

/-- A line of text. -/
def parseSimple : WireParser Frame := do return .simpleString (Utf8.lossy (← readLine))

/-- A line with an error message. -/
def parseError : WireParser Frame := do return .error (Utf8.lossy (← readLine))

/-- A line with an integer. -/
def parseInteger : WireParser Frame := do return .integer (← readInt "integer")

/-- The body of a bulk string, with two bytes after it. -/
def readBody (len : ℕ) : WireParser Bytes := fun b =>
  if b.length < len + 2 then .error .incomplete else .ok (b.take len, b.drop (len + 2))

/-- A length, and as many bytes; -1 is null. -/
def parseBulk : WireParser Frame := do
  let len ← readInt "bulk length"
  if len.val = -1 then return .bulk none
  else if len.val < 0 then throw (.invalid s!"invalid bulk length: {len.val}")
  else return .bulk (some (← readBody len.val.toNat))

/-- A count, and as many values; -1 is null. -/
def parseArray (value : WireParser Frame) : WireParser Frame := do
  let count ← readInt "array count"
  if count.val = -1 then return .array none
  else if count.val < 0 then throw (.invalid s!"invalid array count: {count.val}")
  else return .array (some (← Parser.times value count.val.toNat))

/-- The words between white space. -/
def splitWhitespace (cs : List Char) : List (List Char) :=
  (cs.splitOnP Text.isWhitespace).filter (· ≠ [])

/-- An inline command : a line of words. -/
def parseInline : WireParser Frame := do
  let line ← readLine
  let s := (Utf8.fromUtf8 line).getD ""
  return .array (some ((splitWhitespace s.toList).map fun p => .bulkStr (String.ofList p)))

/-- What follows a first byte that names a type. -/
def parseTagged (value : WireParser Frame) (first : UInt8) : Option (WireParser Frame) :=
  if first = 0x2B then some parseSimple
  else if first = 0x2D then some parseError
  else if first = 0x3A then some parseInteger
  else if first = 0x24 then some parseBulk
  else if first = 0x2A then some (parseArray value)
  else none

/-- One value, with arrays nested at most `depth` deep. -/
def parseValue : ℕ → WireParser Frame
  | 0 => throw .tooDeep
  | depth + 1 => fun b =>
    match b with
    | [] => .error .incomplete
    | first :: r =>
      match parseTagged (parseValue depth) first with
      | some p => p r
      | none => parseInline b

/-- One value; a frame takes at least a byte for every level of nesting. -/
def wireValue : WireParser Frame := fun b => parseValue (b.length + 1) b

/-- Try to decode one frame, with the number of bytes it takes. -/
def parseFrame (b : Bytes) : Except String (Option (Frame × ℕ)) :=
  match wireValue b with
  | .ok (f, r) => .ok (some (f, b.length - r.length))
  | .error (.invalid msg) => .error msg
  | .error _ => .ok none

/-! ## The serializer -/

/-- The line end of the protocol. -/
def crlf : Bytes := [0x0D, 0x0A]

/-- A decimal integer. -/
def decimal (n : ℤ) : Bytes := Utf8.toBytes (toString n)

mutual

/-- The bytes of a frame. Texts are written as they are, also those that contain a line end. -/
def writeFrame : Frame → Bytes
  | .simpleString s => 0x2B :: (Utf8.toBytes s ++ crlf)
  | .error s => 0x2D :: (Utf8.toBytes s ++ crlf)
  | .integer n => 0x3A :: (decimal n ++ crlf)
  | .bulk none => Utf8.toBytes "$-1\r\n"
  | .bulk (some b) => 0x24 :: (decimal b.length ++ crlf ++ b ++ crlf)
  | .array none => Utf8.toBytes "*-1\r\n"
  | .array (some items) => 0x2A :: (decimal items.length ++ crlf ++ writeFrames items)

/-- The bytes of frames, one after the other. -/
def writeFrames : List Frame → Bytes
  | [] => []
  | f :: fs => writeFrame f ++ writeFrames fs

end

/-- The bytes of a frame, in a buffer of their own. -/
def serializeFrame (f : Frame) : Bytes := writeFrame f

/-! ## Frames that can be sent -/

mutual

/-- What the types of the program ensure : 64-bit integers, and lengths that fit in memory. -/
def Frame.Fits : Frame → Prop
  | .integer n => Text.i64Min ≤ n ∧ n ≤ Text.i64Max
  | .bulk (some b) => (b.length : ℤ) ≤ Text.i64Max
  | .array (some items) => (items.length : ℤ) ≤ Text.i64Max ∧ Frame.AllFit items
  | _ => True

/-- All frames of a list fit. -/
def Frame.AllFit : List Frame → Prop
  | [] => True
  | f :: fs => f.Fits ∧ Frame.AllFit fs

end

mutual

/-- No text in the frame contains a line end. -/
def Frame.OneLine : Frame → Prop
  | .simpleString s => ¬ ['\r', '\n'] <:+: s.toList
  | .error s => ¬ ['\r', '\n'] <:+: s.toList
  | .array (some items) => Frame.AllOneLine items
  | _ => True

/-- No text in the frames contains a line end. -/
def Frame.AllOneLine : List Frame → Prop
  | [] => True
  | f :: fs => f.OneLine ∧ Frame.AllOneLine fs

end

/-! ## Lines -/

theorem splitLine_cons {x : UInt8} {b : Bytes} (h : ¬ (x = 0x0D ∧ ∃ r, b = 0x0A :: r)) :
    splitLine (x :: b) = (splitLine b).map fun p => (x :: p.1, p.2) := by
  rw [splitLine]
  rintro r rfl rfl
  exact h ⟨rfl, r, rfl⟩

/-- A line is what stands before the first line end. -/
theorem splitLine_eq_some_iff : ∀ {b line r : Bytes},
    splitLine b = some (line, r) ↔ b = line ++ crlf ++ r ∧ ¬ Utf8.HasCrlf line
  | [], line, r => by simp [splitLine, crlf]
  | x :: b, line, r => by
    by_cases hend : x = 0x0D ∧ ∃ r, b = 0x0A :: r
    · obtain ⟨rfl, r', rfl⟩ := hend
      rw [splitLine, Option.some.injEq, Prod.mk.injEq]
      constructor
      · rintro ⟨rfl, rfl⟩
        exact ⟨rfl, by simp [Utf8.HasCrlf]⟩
      · rintro ⟨heq, hno⟩
        cases line with
        | nil => exact ⟨rfl, by simpa [crlf] using heq⟩
        | cons y line =>
          obtain ⟨rfl, htail⟩ := List.cons.inj heq
          cases line with
          | nil => simp [crlf] at htail
          | cons z line =>
            obtain ⟨rfl, -⟩ := List.cons.inj htail
            exact absurd (Utf8.hasCrlf_cons.mpr (.inl ⟨rfl, line, rfl⟩)) hno
    · rw [splitLine_cons hend, Option.map_eq_some_iff]
      constructor
      · rintro ⟨⟨l, r'⟩, hsplit, heq⟩
        obtain ⟨rfl, rfl⟩ := Prod.mk.inj heq
        obtain ⟨rfl, hno⟩ := splitLine_eq_some_iff.mp hsplit
        refine ⟨rfl, fun hcrlf => ?_⟩
        rcases Utf8.hasCrlf_cons.mp hcrlf with ⟨hx, r, hr⟩ | hcrlf
        · exact hend ⟨hx, r ++ crlf ++ r', by rw [show l = 0x0A :: r from hr]; rfl⟩
        · exact hno hcrlf
      · rintro ⟨heq, hno⟩
        cases line with
        | nil =>
          obtain ⟨rfl, rfl⟩ := List.cons.inj heq
          exact absurd ⟨rfl, r, rfl⟩ hend
        | cons y line =>
          obtain ⟨rfl, rfl⟩ := List.cons.inj heq
          exact ⟨(line, r), splitLine_eq_some_iff.mpr
            ⟨rfl, fun h => hno (Utf8.hasCrlf_cons.mpr (.inr h))⟩, rfl⟩

/-- Without a line end there is no line. -/
theorem splitLine_eq_none_iff : ∀ {b : Bytes}, splitLine b = none ↔ ¬ Utf8.HasCrlf b
  | [] => by simp [splitLine, Utf8.HasCrlf]
  | x :: b => by
    rw [Utf8.hasCrlf_cons]
    by_cases hend : x = 0x0D ∧ ∃ r, b = 0x0A :: r
    · obtain ⟨rfl, r, rfl⟩ := hend
      simp [splitLine]
    · rw [splitLine_cons hend, Option.map_eq_none_iff, splitLine_eq_none_iff]
      simp [hend]

/-- A line is what comes before the first line end. -/
theorem readLine_eq_ok {b line r : Bytes} :
    readLine b = .ok (line, r) ↔ b = line ++ crlf ++ r ∧ ¬ Utf8.HasCrlf line := by
  rw [← splitLine_eq_some_iff, readLine]
  cases h : splitLine b with
  | none => simp
  | some p => simp [Prod.ext_iff]

/-- An unfinished line is waited for. -/
theorem readLine_of_no_crlf {b : Bytes} (h : ¬ Utf8.HasCrlf b) :
    readLine b = .error .incomplete := by
  rw [readLine, splitLine_eq_none_iff.mpr h]

/-! ## What the parser has decided stays decided -/

open Parser

/-- More bytes do not change a line that was read. -/
theorem stable_readLine : Stable readLine where
  ok h x := by
    obtain ⟨rfl, hno⟩ := readLine_eq_ok.mp h
    exact readLine_eq_ok.mpr ⟨List.append_assoc .., hno⟩
  invalid h := by
    unfold readLine at h
    split at h <;> cases h

theorem consumes_readLine : Consumes 2 readLine := by
  intro b line r h
  obtain ⟨rfl, -⟩ := readLine_eq_ok.mp h
  exact ⟨line ++ crlf, rfl, by simp [crlf]⟩

theorem local_readLine : Local readLine := by
  intro b line r h
  obtain ⟨rfl, hno⟩ := readLine_eq_ok.mp h
  exact ⟨line ++ crlf, rfl, fun x => readLine_eq_ok.mpr ⟨rfl, hno⟩⟩

/-- Lines are read at any depth of nesting. -/
theorem shallow_readLine (n : ℕ) : Shallow n readLine := by
  intro b _ h
  unfold readLine at h
  split at h <;> cases h

theorem stable_readInt (what : String) : Stable (readInt what) :=
  stable_bind stable_readLine fun line => by
    split
    · exact stable_pure _
    · exact stable_throw _

theorem consumes_readInt (what : String) : Consumes 2 (readInt what) :=
  consumes_bind consumes_readLine fun line => by
    split
    · exact consumes_pure _
    · exact consumes_throw _ _

theorem local_readInt (what : String) : Local (readInt what) :=
  local_bind local_readLine fun line => by
    split
    · exact local_pure _
    · exact local_throw _

theorem shallow_readInt (n : ℕ) (what : String) : Shallow n (readInt what) :=
  shallow_bind consumes_readLine (shallow_readLine n) fun line => by
    split
    · exact shallow_pure _ _
    · exact shallow_throw _ (by simp)

theorem stable_readBody (len : ℕ) : Stable (readBody len) where
  ok {b a r} h x := by
    unfold readBody at h ⊢
    split at h
    · cases h
    · next hlen =>
      obtain ⟨rfl, rfl⟩ := Prod.mk.inj (Except.ok.inj h)
      rw [if_neg (by rw [List.length_append]; omega), List.take_append_of_le_length (by omega),
        List.drop_append_of_le_length (by omega)]
  invalid h := by
    unfold readBody at h
    split at h <;> cases h

/-- A body may be empty, but for what stands behind it. -/
theorem consumes_readBody (len : ℕ) : Consumes 0 (readBody len) := by
  intro b a r h
  unfold readBody at h
  split at h
  · cases h
  · obtain ⟨rfl, rfl⟩ := Prod.mk.inj (Except.ok.inj h)
    exact ⟨b.take (len + 2), (List.take_append_drop ..).symm, Nat.zero_le _⟩

theorem local_readBody (len : ℕ) : Local (readBody len) := by
  intro b a r h
  unfold readBody at h
  split at h
  · cases h
  · next hlen =>
    obtain ⟨rfl, rfl⟩ := Prod.mk.inj (Except.ok.inj h)
    have htake : (b.take (len + 2)).length = len + 2 := by
      rw [List.length_take]
      omega
    refine ⟨b.take (len + 2), (List.take_append_drop ..).symm, fun x => ?_⟩
    rw [readBody, if_neg (by rw [List.length_append]; omega),
      List.take_append_of_le_length (by omega), List.take_take, Nat.min_eq_left (by omega)]
    congr 2
    exact List.drop_left' htake

theorem shallow_readBody (n len : ℕ) : Shallow n (readBody len) := by
  intro b _ h
  unfold readBody at h
  split at h <;> cases h

theorem stable_parseBulk : Stable parseBulk :=
  stable_bind (stable_readInt _) fun len => by
    split
    · exact stable_pure _
    · split
      · exact stable_throw _
      · exact stable_bind (stable_readBody _) fun _ => stable_pure _

/-- An array of stable values is stable. -/
theorem stable_parseArray {value : WireParser Frame} (h : Stable value) :
    Stable (parseArray value) :=
  stable_bind (stable_readInt _) fun count => by
    split
    · exact stable_pure _
    · split
      · exact stable_throw _
      · exact stable_bind (stable_times h _) fun _ => stable_pure _

theorem stable_parseInline : Stable parseInline :=
  stable_bind stable_readLine fun _ => stable_pure _

theorem local_parseBulk : Local parseBulk :=
  local_bind (local_readInt _) fun len => by
    split
    · exact local_pure _
    · split
      · exact local_throw _
      · exact local_bind (local_readBody _) fun _ => local_pure _

/-- What stands behind an array does not matter to it. -/
theorem local_parseArray {value : WireParser Frame} (h : Local value) : Local (parseArray value) :=
  local_bind (local_readInt _) fun count => by
    split
    · exact local_pure _
    · split
      · exact local_throw _
      · exact local_bind (local_times h _) fun _ => local_pure _

theorem local_parseInline : Local parseInline := local_bind local_readLine fun _ => local_pure _

theorem consumes_parseBulk : Consumes 2 parseBulk :=
  consumes_bind (consumes_readInt _) fun len => by
    split
    · exact consumes_pure _
    · split
      · exact consumes_throw _ _
      · exact consumes_bind (consumes_readBody _) fun _ => consumes_pure _

theorem shallow_parseBulk (n : ℕ) : Shallow n parseBulk :=
  shallow_bind (consumes_readInt _) (shallow_readInt n _) fun len => by
    split
    · exact shallow_pure _ _
    · split
      · exact shallow_throw _ (by simp)
      · exact shallow_bind (consumes_readBody _) (shallow_readBody _ _) fun _ => shallow_pure _ _

/-- An array takes at least its header. -/
theorem consumes_parseArray {value : WireParser Frame} (h : Consumes 0 value) :
    Consumes 2 (parseArray value) :=
  consumes_bind (consumes_readInt _) fun count => by
    split
    · exact consumes_pure _
    · split
      · exact consumes_throw _ _
      · exact consumes_bind (consumes_times h _) fun _ => consumes_pure _

theorem shallow_parseArray {value : WireParser Frame} {n : ℕ} (hc : Consumes 0 value)
    (h : Shallow n value) : Shallow n (parseArray value) :=
  shallow_bind (consumes_readInt _) (shallow_readInt n _) fun count => by
    split
    · exact shallow_pure _ _
    · split
      · exact shallow_throw _ (by simp)
      · exact shallow_bind (consumes_times hc _) (shallow_times hc (h.mono (Nat.sub_le ..)) _)
          fun _ => shallow_pure _ _

/-- Values that may nest deeper make arrays that may nest deeper. -/
theorem refines_parseArray {value value' : WireParser Frame} (h : Refines value value') :
    Refines (parseArray value) (parseArray value') :=
  refines_bind (refines_refl _) fun count => by
    split
    · exact refines_refl _
    · split
      · exact refines_refl _
      · exact refines_bind (refines_times h _) fun _ => refines_refl _

/-- A property of all parsers after a first byte. -/
theorem parseTagged_forall {value : WireParser Frame} {P : WireParser Frame → Prop}
    (simple : P parseSimple) (error : P parseError) (integer : P parseInteger)
    (bulk : P parseBulk) (array : P (parseArray value)) {first : UInt8} {p : WireParser Frame}
    (h : parseTagged value first = some p) : P p := by
  unfold parseTagged at h
  split_ifs at h <;> obtain rfl := Option.some.inj h <;> assumption

theorem stable_parseTagged {value : WireParser Frame} (hv : Stable value) {first : UInt8}
    {p : WireParser Frame} (h : parseTagged value first = some p) : Stable p :=
  parseTagged_forall (stable_bind stable_readLine fun _ => stable_pure _)
    (stable_bind stable_readLine fun _ => stable_pure _)
    (stable_bind (stable_readInt _) fun _ => stable_pure _) stable_parseBulk
    (stable_parseArray hv) h

theorem consumes_parseTagged {value : WireParser Frame} (hv : Consumes 0 value) {first : UInt8}
    {p : WireParser Frame} (h : parseTagged value first = some p) : Consumes 2 p :=
  parseTagged_forall (consumes_bind consumes_readLine fun _ => consumes_pure _)
    (consumes_bind consumes_readLine fun _ => consumes_pure _)
    (consumes_bind (consumes_readInt _) fun _ => consumes_pure _) consumes_parseBulk
    (consumes_parseArray hv) h

theorem local_parseTagged {value : WireParser Frame} (hv : Local value) {first : UInt8}
    {p : WireParser Frame} (h : parseTagged value first = some p) : Local p :=
  parseTagged_forall (local_bind local_readLine fun _ => local_pure _)
    (local_bind local_readLine fun _ => local_pure _)
    (local_bind (local_readInt _) fun _ => local_pure _) local_parseBulk (local_parseArray hv) h

theorem shallow_parseTagged {value : WireParser Frame} {n : ℕ} (hc : Consumes 0 value)
    (hv : Shallow n value) {first : UInt8} {p : WireParser Frame}
    (h : parseTagged value first = some p) : Shallow n p :=
  parseTagged_forall (shallow_bind consumes_readLine (shallow_readLine n) fun _ => shallow_pure _ _)
    (shallow_bind consumes_readLine (shallow_readLine n) fun _ => shallow_pure _ _)
    (shallow_bind (consumes_readInt _) (shallow_readInt n _) fun _ => shallow_pure _ _)
    (shallow_parseBulk n) (shallow_parseArray hc hv) h

/-- A first byte that names a type is dropped. -/
theorem parseValue_cons_some {depth : ℕ} {first : UInt8} {r : Bytes} {p : WireParser Frame}
    (h : parseTagged (parseValue depth) first = some p) :
    parseValue (depth + 1) (first :: r) = p r := by
  simp only [parseValue, h]

/-- Any other first byte begins an inline command. -/
theorem parseValue_cons_none {depth : ℕ} {first : UInt8} {r : Bytes}
    (h : parseTagged (parseValue depth) first = none) :
    parseValue (depth + 1) (first :: r) = parseInline (first :: r) := by
  simp only [parseValue, h]

/-- More bytes do not change a value that was read, by induction on the depth. -/
theorem stable_parseValue : ∀ depth, Stable (parseValue depth)
  | 0 => stable_throw _
  | depth + 1 => by
    refine ⟨fun {b a r} h x => ?_, fun {b e} h x => ?_⟩
    · cases b with
      | nil => cases h
      | cons first b =>
        cases htag : parseTagged (parseValue depth) first with
        | some p =>
          rw [parseValue_cons_some htag] at h
          rw [List.cons_append, parseValue_cons_some htag]
          exact (stable_parseTagged (stable_parseValue depth) htag).ok h x
        | none =>
          rw [parseValue_cons_none htag] at h
          rw [List.cons_append, parseValue_cons_none htag]
          exact stable_parseInline.ok h x
    · cases b with
      | nil => cases h
      | cons first b =>
        cases htag : parseTagged (parseValue depth) first with
        | some p =>
          rw [parseValue_cons_some htag] at h
          rw [List.cons_append, parseValue_cons_some htag]
          exact (stable_parseTagged (stable_parseValue depth) htag).invalid h x
        | none =>
          rw [parseValue_cons_none htag] at h
          rw [List.cons_append, parseValue_cons_none htag]
          exact stable_parseInline.invalid h x

/-- A value takes at least a byte. -/
theorem consumes_parseValue : ∀ depth, Consumes 1 (parseValue depth)
  | 0 => consumes_throw _ _
  | depth + 1 => by
    intro b a r h
    cases b with
    | nil => cases h
    | cons first b =>
      cases htag : parseTagged (parseValue depth) first with
      | some p =>
        rw [parseValue_cons_some htag] at h
        obtain ⟨c, rfl, -⟩ := consumes_parseTagged
          ((consumes_parseValue depth).mono (Nat.zero_le _)) htag _ _ _ h
        exact ⟨first :: c, rfl, by simp⟩
      | none =>
        rw [parseValue_cons_none htag] at h
        obtain ⟨c, hc, hlen⟩ := consumes_bind consumes_readLine (fun _ => consumes_pure _) _ _ _ h
        exact ⟨c, hc, by omega⟩

theorem local_parseValue : ∀ depth, Local (parseValue depth)
  | 0 => local_throw _
  | depth + 1 => by
    intro b f r h
    cases b with
    | nil => cases h
    | cons first b =>
      cases htag : parseTagged (parseValue depth) first with
      | some p =>
        rw [parseValue_cons_some htag] at h
        obtain ⟨c, rfl, hc⟩ := local_parseTagged (local_parseValue depth) htag _ _ _ h
        refine ⟨first :: c, rfl, fun x => ?_⟩
        rw [List.cons_append, parseValue_cons_some htag]
        exact hc x
      | none =>
        rw [parseValue_cons_none htag] at h
        obtain ⟨c, hb, hc⟩ := local_parseInline _ _ _ h
        -- The first byte belongs to the line.
        cases c with
        | nil => cases hc []
        | cons first' c =>
          obtain ⟨rfl, rfl⟩ := List.cons.inj hb
          refine ⟨first :: c, rfl, fun x => ?_⟩
          rw [List.cons_append, parseValue_cons_none htag]
          exact hc x

/-! ## The recursion ends -/

/-- Every level of nesting takes a byte. -/
theorem shallow_parseValue : ∀ depth, Shallow depth (parseValue depth)
  | 0 => fun _ hb => absurd hb (Nat.not_lt_zero _)
  | depth + 1 => by
    intro b hb h
    cases b with
    | nil => cases h
    | cons first b =>
      cases htag : parseTagged (parseValue depth) first with
      | some p =>
        rw [parseValue_cons_some htag] at h
        exact shallow_parseTagged ((consumes_parseValue depth).mono (Nat.zero_le _))
          (shallow_parseValue depth) htag b (by simpa using hb) h
      | none =>
        rw [parseValue_cons_none htag] at h
        exact shallow_bind consumes_readLine (shallow_readLine _) (fun _ => shallow_pure _ _)
          _ (Nat.lt_succ_self _) h

/-- A greater depth gives the same values. -/
theorem refines_parseValue : ∀ depth, Refines (parseValue depth) (parseValue (depth + 1))
  | 0 => fun _ h => absurd rfl h
  | depth + 1 => by
    intro b hb
    cases b with
    | nil => rfl
    | cons first b =>
      have htagged (first : UInt8) : (parseTagged (parseValue depth) first = none ∧
          parseTagged (parseValue (depth + 1)) first = none) ∨ ∃ p q,
            parseTagged (parseValue depth) first = some p ∧
              parseTagged (parseValue (depth + 1)) first = some q ∧ Refines p q := by
        unfold parseTagged
        split_ifs
        iterate 4 exact .inr ⟨_, _, rfl, rfl, refines_refl _⟩
        · exact .inr ⟨_, _, rfl, rfl, refines_parseArray (refines_parseValue depth)⟩
        · exact .inl ⟨rfl, rfl⟩
      rcases htagged first with ⟨hp, hq⟩ | ⟨p, q, hp, hq, hpq⟩
      · rw [parseValue_cons_none hp, parseValue_cons_none hq]
      · rw [parseValue_cons_some hp] at hb ⊢
        rw [parseValue_cons_some hq]
        exact hpq b hb

/-- The depth is enough if it exceeds the length of the input. -/
theorem parseValue_ne_tooDeep {depth : ℕ} {b : Bytes} (h : b.length < depth) :
    parseValue depth b ≠ .error .tooDeep :=
  shallow_parseValue depth b h

/-- Any bound that is not reached gives the same result. -/
theorem parseValue_eq_wireValue {depth : ℕ} {b : Bytes} (h : b.length < depth) :
    parseValue depth b = wireValue b := by
  induction depth, h using Nat.le_induction with
  | base => rfl
  | succ depth h ih => rw [refines_parseValue depth b (parseValue_ne_tooDeep h), ih]

/-- The depth of `wireValue` is enough. -/
theorem wireValue_ne_tooDeep (b : Bytes) : wireValue b ≠ .error .tooDeep :=
  parseValue_ne_tooDeep (Nat.lt_succ_self _)

theorem stable_wireValue : Stable wireValue where
  ok {b a r} h x := by
    rw [← @parseValue_eq_wireValue ((b ++ x).length + 1) b (by rw [List.length_append]; omega)] at h
    exact (stable_parseValue _).ok h x
  invalid {b e} h x := by
    rw [← @parseValue_eq_wireValue ((b ++ x).length + 1) b (by rw [List.length_append]; omega)] at h
    exact (stable_parseValue _).invalid h x

/-- A frame takes at least a byte. -/
theorem consumes_wireValue : Consumes 1 wireValue := fun b => consumes_parseValue _ b

theorem local_wireValue : Local wireValue := by
  intro b f r h
  obtain ⟨c, rfl, hc⟩ := local_parseValue _ _ _ _ h
  have hlen : (c ++ []).length < (c ++ r).length + 1 := by
    rw [List.length_append, List.length_append, List.length_nil]
    omega
  have halone := hc []
  rw [parseValue_eq_wireValue hlen, List.append_nil] at halone
  exact ⟨c, rfl, stable_wireValue.ok halone⟩

/-! ## Parsing a buffer that grows -/

/-- A frame is read together with the bytes that it takes. -/
theorem parseFrame_eq_some_iff {b : Bytes} {f : Frame} {n : ℕ} :
    parseFrame b = .ok (some (f, n)) ↔
      ∃ c r, b = c ++ r ∧ c.length = n ∧ wireValue b = .ok (f, r) := by
  unfold parseFrame
  constructor
  · intro h
    split at h
    · next f' r hw =>
      obtain ⟨rfl, rfl⟩ := Prod.mk.inj (Option.some.inj (Except.ok.inj h))
      obtain ⟨c, hb, -⟩ := consumes_wireValue _ _ _ hw
      exact ⟨c, r, hb, by rw [hb, List.length_append]; omega, hw⟩
    · cases h
    · cases h
  · rintro ⟨c, r, rfl, rfl, hw⟩
    simp only [hw, List.length_append, Nat.add_sub_cancel]

/-- The bytes of a frame, and those behind it. -/
theorem parseFrame_of_wireValue {b r : Bytes} {f : Frame} (hw : wireValue b = .ok (f, r)) :
    ∃ c, b = c ++ r ∧ 1 ≤ c.length ∧ parseFrame b = .ok (some (f, c.length)) := by
  obtain ⟨c, hb, hc⟩ := consumes_wireValue _ _ _ hw
  exact ⟨c, hb, hc, parseFrame_eq_some_iff.mpr ⟨c, r, hb, rfl, hw⟩⟩

/-- Only invalid input is an error; a frame that is not complete is none. -/
theorem parseFrame_eq_error_iff {b : Bytes} {e : String} :
    parseFrame b = .error e ↔ wireValue b = .error (.invalid e) := by
  unfold parseFrame
  constructor
  · intro h
    split at h
    · cases h
    · next msg hw => rw [← Except.error.inj h, hw]
    · cases h
  · intro hw
    simp only [hw]

/-- Bytes that arrive later do not change what was decided, a frame takes at least one byte and
at most what is there, and the recursion ends before it is as deep as the input is long. -/
theorem parseFrame_incremental (b x : Bytes) :
    (∀ f n, parseFrame b = .ok (some (f, n)) →
      1 ≤ n ∧ n ≤ b.length ∧ parseFrame (b ++ x) = .ok (some (f, n))) ∧
    (∀ e, parseFrame b = .error e → ∃ e', parseFrame (b ++ x) = .error e') ∧
    (∀ f n, parseFrame (b ++ x) = .ok (some (f, n)) → b.length < n → parseFrame b = .ok none) ∧
    (∀ depth, b.length < depth →
      parseValue depth b ≠ .error .tooDeep ∧ parseValue depth b = wireValue b) := by
  have hsome : ∀ f n, parseFrame b = .ok (some (f, n)) →
      1 ≤ n ∧ n ≤ b.length ∧ parseFrame (b ++ x) = .ok (some (f, n)) := by
    intro f n h
    obtain ⟨c, r, rfl, rfl, hw⟩ := parseFrame_eq_some_iff.mp h
    obtain ⟨c', hc', hlen⟩ := consumes_wireValue _ _ _ hw
    have heq : c = c' := List.append_cancel_right hc'
    refine ⟨heq ▸ hlen, by simp, parseFrame_eq_some_iff.mpr ⟨c, r ++ x, ?_, rfl, ?_⟩⟩
    · rw [List.append_assoc]
    · exact stable_wireValue.ok hw x
  have herror : ∀ e, parseFrame b = .error e → ∃ e', parseFrame (b ++ x) = .error e' := by
    intro e h
    exact ⟨e, parseFrame_eq_error_iff.mpr
      (stable_wireValue.invalid (parseFrame_eq_error_iff.mp h) x)⟩
  refine ⟨hsome, herror, fun f n h hn => ?_, fun depth hd =>
    ⟨parseValue_ne_tooDeep hd, parseValue_eq_wireValue hd⟩⟩
  cases hb : parseFrame b with
  | error e =>
    obtain ⟨e', he'⟩ := herror e hb
    rw [he'] at h
    cases h
  | ok o =>
    cases o with
    | none => rfl
    | some p =>
      obtain ⟨f', n'⟩ := p
      obtain ⟨-, hle, hext⟩ := hsome f' n' hb
      rw [hext] at h
      obtain ⟨-, rfl⟩ := Prod.mk.inj (Option.some.inj (Except.ok.inj h))
      omega

/-- `+OK` in front of the beginning of another frame. -/
theorem parseFrame_incremental_ok :
    parseFrame (Utf8.toBytes "+OK\r\n" ++ Utf8.toBytes "$3") = .ok (some (.ok, 5)) :=
  ((parseFrame_incremental (Utf8.toBytes "+OK\r\n") (Utf8.toBytes "$3")).1 .ok 5
    (by decide)).2.2

/-! ## The round trip -/

/-- The decimal digits of a number contain no line end. -/
theorem not_hasCrlf_decimal (n : ℤ) : ¬ Utf8.HasCrlf (decimal n) := by
  rw [decimal, Utf8.hasCrlf_toBytes_iff]
  intro h
  have hmem : '\r' ∈ (toString n).toList := h.subset List.mem_cons_self
  exact absurd (Text.isWhitespace_of_mem_toString n _ hmem) (by decide)

/-- A decimal integer has no white space in it. -/
theorem not_mem_decimal {n : ℤ} {x : UInt8} (hlt : x.toNat < 128)
    (hw : ∀ c : Char, c.toNat = x.toNat → Text.isWhitespace c = true) : x ∉ decimal n := by
  intro hx
  obtain ⟨c, hc, hcx⟩ := Utf8.mem_toBytes_of_ascii hlt hx
  have hno := Text.isWhitespace_of_mem_toString n c hc
  rw [hw c hcx] at hno
  cases hno

/-- An asterisk is no part of an integer. -/
theorem parseInt_of_mem_star {line : Bytes} (h : 0x2A ∈ line) : parseInt line = none := by
  cases hint : parseInt line with
  | none => rfl
  | some n =>
    obtain ⟨s, hs, hn⟩ := Option.bind_eq_some_iff.mp hint
    rw [← Utf8.toBytes_of_fromUtf8 hs] at h
    obtain ⟨c, hc, hnat⟩ := Utf8.mem_toBytes_of_ascii (by decide) h
    obtain rfl : c = '*' := Utf8.toNat_inj hnat
    have hdigit := Text.isDigit_or_sign hn (Text.mem_trim hc (by decide))
    exact absurd hdigit (by decide)

/-- A line is read back. -/
theorem readLine_append {line : Bytes} (h : ¬ Utf8.HasCrlf line) (r : Bytes) :
    readLine (line ++ crlf ++ r) = .ok (line, r) :=
  readLine_eq_ok.mpr ⟨rfl, h⟩

/-- A number is read back. -/
theorem readInt_decimal (what : String) (n : Text.I64) (r : Bytes) :
    readInt what (decimal n ++ crlf ++ r) = .ok (n, r) := by
  have hint : parseInt (decimal n) = some n := by
    rw [parseInt, decimal, Utf8.fromUtf8_toBytes, Option.bind_some,
      Text.trim_of_no_whitespace (Text.isWhitespace_of_mem_toString n.val), Text.parseI64_toString]
  rw [readInt, bind_ok (readLine_append (not_hasCrlf_decimal n) r), hint]
  rfl

/-- A length that fits is read as itself. -/
theorem readInt_length (what : String) {n : ℕ} (h : (n : ℤ) ≤ Text.i64Max) (r : Bytes) :
    ∃ len : Text.I64, len.val = n ∧ readInt what (decimal n ++ crlf ++ r) = .ok (len, r) := by
  have hmin : Text.i64Min ≤ (n : ℤ) := by
    have := Int.natCast_nonneg n
    unfold Text.i64Min
    omega
  exact ⟨⟨n, hmin, h⟩, rfl, readInt_decimal what ⟨n, hmin, h⟩ r⟩

/-- A body is read back. -/
theorem readBody_append (b r : Bytes) : readBody b.length (b ++ crlf ++ r) = .ok (b, r) := by
  have hlen : ¬ (b ++ crlf ++ r).length < b.length + 2 := by simp [crlf]
  rw [readBody, if_neg hlen]
  simp [crlf, List.append_assoc]

theorem parseTagged_array {value : WireParser Frame} :
    parseTagged value 0x2A = some (parseArray value) := rfl

/-- A bulk string is read back. -/
theorem parseBulk_some {b : Bytes} (h : (b.length : ℤ) ≤ Text.i64Max) (r : Bytes) :
    parseBulk (decimal b.length ++ crlf ++ b ++ crlf ++ r) = .ok (.bulk (some b), r) := by
  obtain ⟨len, hlen, hread⟩ := readInt_length "bulk length" h (b ++ crlf ++ r)
  have hneg : ¬ len.val = -1 := by omega
  have hneg' : ¬ len.val < 0 := by omega
  have hnat : len.val.toNat = b.length := by omega
  rw [List.append_assoc (decimal b.length ++ crlf), List.append_assoc (decimal b.length ++ crlf),
    parseBulk, bind_ok hread, if_neg hneg, if_neg hneg', hnat,
    bind_ok (readBody_append b r)]
  rfl

/-- The null bulk string is read back. -/
theorem parseBulk_none (r : Bytes) :
    parseBulk (decimal (-1) ++ crlf ++ r) = .ok (.bulk none, r) := by
  rw [parseBulk, bind_ok (readInt_decimal _ ⟨-1, by decide⟩ r), if_pos rfl]
  rfl

/-- An array has as many items as its first line says. -/
theorem count_of_parseArray {value : WireParser Frame} {items : List Frame} {b r : Bytes}
    (h : parseArray value b = .ok (.array (some items), r)) :
    ∃ (count : Text.I64) (r' : Bytes), readInt "array count" b = .ok (count, r') ∧
      count.val = items.length := by
  obtain ⟨count, r', hread, h⟩ := bind_eq_ok.mp h
  refine ⟨count, r', hread, ?_⟩
  split at h
  · cases h
  · split at h
    · cases h
    · obtain ⟨as, r'', htimes, hpure⟩ := bind_eq_ok.mp h
      obtain ⟨has, -⟩ := Prod.mk.inj (Except.ok.inj hpure)
      obtain rfl := Option.some.inj (Frame.array.inj has)
      rw [(of_times_eq_ok htimes).1]
      omega

/-- The null array is read back. -/
theorem parseArray_none (value : WireParser Frame) (r : Bytes) :
    parseArray value (decimal (-1) ++ crlf ++ r) = .ok (.array none, r) := by
  rw [parseArray, bind_ok (readInt_decimal _ ⟨-1, by decide⟩ r), if_pos rfl]
  rfl

/-- An array is read back, if its items are. -/
theorem parseArray_some {value : WireParser Frame} {items : List Frame} {b r : Bytes}
    (h : (items.length : ℤ) ≤ Text.i64Max) (hitems : times value items.length b = .ok (items, r)) :
    parseArray value (decimal items.length ++ crlf ++ b) = .ok (.array (some items), r) := by
  obtain ⟨len, hlen, hread⟩ := readInt_length "array count" h b
  have hneg : ¬ len.val = -1 := by omega
  have hneg' : ¬ len.val < 0 := by omega
  have hnat : len.val.toNat = items.length := by omega
  rw [parseArray, bind_ok hread, if_neg hneg, if_neg hneg', hnat, bind_ok hitems]
  rfl

/-- A simple string is read back, if it is one line. -/
theorem parseSimple_append {s : String} (h : ¬ ['\r', '\n'] <:+: s.toList) (r : Bytes) :
    parseSimple (Utf8.toBytes s ++ crlf ++ r) = .ok (.simpleString s, r) := by
  rw [← Utf8.hasCrlf_toBytes_iff] at h
  rw [parseSimple, bind_ok (readLine_append h r), Utf8.lossy_toBytes]
  rfl

/-- An error is read back, if it is one line. -/
theorem parseError_append {s : String} (h : ¬ ['\r', '\n'] <:+: s.toList) (r : Bytes) :
    parseError (Utf8.toBytes s ++ crlf ++ r) = .ok (.error s, r) := by
  rw [← Utf8.hasCrlf_toBytes_iff] at h
  rw [parseError, bind_ok (readLine_append h r), Utf8.lossy_toBytes]
  rfl

/-- An integer is read back. -/
theorem parseInteger_append {n : ℤ} (h : Text.i64Min ≤ n ∧ n ≤ Text.i64Max) (r : Bytes) :
    parseInteger (decimal n ++ crlf ++ r) = .ok (.integer n, r) := by
  rw [parseInteger, bind_ok (readInt_decimal _ ⟨n, h⟩ r)]
  rfl

/-- No frame is written as nothing. -/
theorem length_writeFrame_pos (f : Frame) : 0 < (writeFrame f).length := by
  cases f with
  | simpleString s => simp [writeFrame]
  | error s => simp [writeFrame]
  | integer n => simp [writeFrame]
  | bulk b =>
    cases b with
    | none => exact Nat.lt_of_lt_of_le (by decide) (Nat.le_refl 5)
    | some b => simp [writeFrame]
  | array items =>
    cases items with
    | none => exact Nat.lt_of_lt_of_le (by decide) (Nat.le_refl 5)
    | some items => simp [writeFrame]

theorem toBytes_nullBulk : Utf8.toBytes "$-1\r\n" = 0x24 :: (decimal (-1) ++ crlf) := by
  decide

theorem toBytes_nullArray : Utf8.toBytes "*-1\r\n" = 0x2A :: (decimal (-1) ++ crlf) := by
  decide

mutual

/-- A frame is read back, by induction on it; the depth is at most the number of bytes. -/
theorem parseValue_writeFrame : ∀ (f : Frame), f.Fits → f.OneLine → ∀ (depth : ℕ) (r : Bytes),
    (writeFrame f).length ≤ depth + 1 → parseValue (depth + 1) (writeFrame f ++ r) = .ok (f, r)
  | .simpleString s, _, ho, depth, r, _ => parseSimple_append (by simpa [Frame.OneLine] using ho) r
  | .error s, _, ho, depth, r, _ => parseError_append (by simpa [Frame.OneLine] using ho) r
  | .integer n, hf, _, depth, r, _ => parseInteger_append (by simpa [Frame.Fits] using hf) r
  | .bulk none, _, _, depth, r, _ => by
    rw [writeFrame, toBytes_nullBulk]
    exact parseBulk_none r
  | .bulk (some b), hf, _, depth, r, _ => parseBulk_some (by simpa [Frame.Fits] using hf) r
  | .array none, _, _, depth, r, _ => by
    rw [writeFrame, toBytes_nullArray]
    exact parseArray_none _ r
  | .array (some items), hf, ho, depth, r, hlen => by
    rw [Frame.Fits] at hf
    rw [Frame.OneLine] at ho
    rw [writeFrame] at hlen ⊢
    have hle : (writeFrames items).length ≤ depth := by
      simp only [List.length_cons, List.length_append] at hlen
      omega
    have hitems := times_writeFrames items hf.2 ho depth r hle
    have harray := parseArray_some hf.1 hitems
    rw [← List.append_assoc] at harray
    exact harray

/-- Frames are read back one after the other. -/
theorem times_writeFrames : ∀ (fs : List Frame), Frame.AllFit fs → Frame.AllOneLine fs →
    ∀ (depth : ℕ) (r : Bytes), (writeFrames fs).length ≤ depth →
      times (parseValue depth) fs.length (writeFrames fs ++ r) = .ok (fs, r)
  | [], _, _, _, _, _ => rfl
  | f :: fs, hf, ho, depth, r, hlen => by
    rw [Frame.AllFit] at hf
    rw [Frame.AllOneLine] at ho
    rw [writeFrames, List.length_append] at hlen
    cases depth with
    | zero =>
      have := length_writeFrame_pos f
      omega
    | succ depth =>
      have hhead := parseValue_writeFrame f hf.1 ho.1 depth (writeFrames fs ++ r) (by omega)
      have htail := times_writeFrames fs hf.2 ho.2 (depth + 1) r (by omega)
      rw [writeFrames, List.append_assoc, List.length_cons, times, bind_ok hhead, bind_ok htail]
      rfl

end

/-- A frame is read back, whatever comes behind it. -/
theorem wireValue_writeFrame {f : Frame} (hf : f.Fits) (ho : f.OneLine) (r : Bytes) :
    wireValue (writeFrame f ++ r) = .ok (f, r) :=
  parseValue_writeFrame f hf ho _ r (by rw [List.length_append]; omega)

/-- A frame that was written by itself is read back. -/
theorem parseFrame_serializeFrame {f : Frame} (hf : f.Fits) (ho : f.OneLine) :
    parseFrame (serializeFrame f) = .ok (some (f, (serializeFrame f).length)) := by
  have hvalue := wireValue_writeFrame hf ho []
  rw [List.append_nil] at hvalue
  exact parseFrame_eq_some_iff.mpr ⟨_, [], (List.append_nil _).symm, rfl, hvalue⟩

/-- Frames that are written one after the other are read one after the other. -/
theorem drain_writeFrames : ∀ {fs : List Frame}, Frame.AllFit fs → Frame.AllOneLine fs →
    ∀ x, drain wireValue (writeFrames fs ++ x) =
      (fs ++ (drain wireValue x).1, (drain wireValue x).2)
  | [], _, _, x => rfl
  | f :: fs, hf, ho, x => by
    rw [Frame.AllFit] at hf
    rw [Frame.AllOneLine] at ho
    rw [writeFrames, List.append_assoc,
      drain_ok consumes_wireValue (wireValue_writeFrame hf.1 ho.1 _), drain_writeFrames hf.2 ho.2 x]
    rfl

/-- All frames of a list fit if each of them does. -/
theorem allFit_iff {fs : List Frame} : Frame.AllFit fs ↔ ∀ f ∈ fs, f.Fits := by
  induction fs with
  | nil => simp [Frame.AllFit]
  | cons f fs ih => rw [Frame.AllFit, ih, List.forall_mem_cons]

/-- The texts in a list of frames are those in each of them. -/
theorem allOneLine_iff {fs : List Frame} : Frame.AllOneLine fs ↔ ∀ f ∈ fs, f.OneLine := by
  induction fs with
  | nil => simp [Frame.AllOneLine]
  | cons f fs ih => rw [Frame.AllOneLine, ih, List.forall_mem_cons]

/-- Decoding a line does not make a line end. -/
theorem oneLine_lossy {line : Bytes} (h : ¬ Utf8.HasCrlf line) :
    ¬ ['\r', '\n'] <:+: (Utf8.lossy line).toList := by
  rw [← Utf8.hasCrlf_toBytes_iff]
  exact fun hcrlf => h (Utf8.hasCrlf_of_lossy hcrlf)

/-- A parser whose frames have no line ends in their texts. -/
def YieldsOneLine (p : WireParser Frame) : Prop := ∀ b f r, p b = .ok (f, r) → f.OneLine

theorem yieldsOneLine_bind {α : Type} {p : WireParser α} {g : α → WireParser Frame}
    (h : ∀ b a r, p b = .ok (a, r) → YieldsOneLine (g a)) : YieldsOneLine (p >>= g) := by
  intro b f r hf
  obtain ⟨a, r', ha, hg⟩ := bind_eq_ok.mp hf
  exact h b a r' ha r' f r hg

theorem yieldsOneLine_pure {f : Frame} (h : f.OneLine) : YieldsOneLine (pure f) := by
  intro b f' r hf
  obtain ⟨rfl, -⟩ := Prod.mk.inj (Except.ok.inj hf)
  exact h

theorem yieldsOneLine_throw (e : Stop String) : YieldsOneLine (throw e) := fun _ _ _ h => nomatch h

theorem yieldsOneLine_parseBulk : YieldsOneLine parseBulk :=
  yieldsOneLine_bind fun _ len _ _ => by
    split
    · exact yieldsOneLine_pure (by simp [Frame.OneLine])
    · split
      · exact yieldsOneLine_throw _
      · exact yieldsOneLine_bind fun _ _ _ _ => yieldsOneLine_pure (by simp [Frame.OneLine])

/-- The texts in an array are those in its items. -/
theorem yieldsOneLine_parseArray {value : WireParser Frame} (h : YieldsOneLine value) :
    YieldsOneLine (parseArray value) :=
  yieldsOneLine_bind fun _ count _ _ => by
    split
    · exact yieldsOneLine_pure (by simp [Frame.OneLine])
    · split
      · exact yieldsOneLine_throw _
      · refine yieldsOneLine_bind fun _ items _ hitems => yieldsOneLine_pure ?_
        rw [Frame.OneLine, allOneLine_iff]
        intro f hf
        obtain ⟨b, r, hb⟩ := (of_times_eq_ok hitems).2 f hf
        exact h b f r hb

theorem yieldsOneLine_parseInline : YieldsOneLine parseInline :=
  yieldsOneLine_bind fun _ _ _ _ => yieldsOneLine_pure (by
    rw [Frame.OneLine, allOneLine_iff]
    intro f hf
    obtain ⟨p, -, rfl⟩ := List.mem_map.mp hf
    simp [Frame.bulkStr, Frame.OneLine])

/-- Every frame that is read has texts of one line each. -/
theorem yieldsOneLine_parseValue : ∀ depth, YieldsOneLine (parseValue depth)
  | 0 => yieldsOneLine_throw _
  | depth + 1 => by
    intro b f r h
    cases b with
    | nil => cases h
    | cons first b =>
      cases htag : parseTagged (parseValue depth) first with
      | none =>
        rw [parseValue_cons_none htag] at h
        exact yieldsOneLine_parseInline _ f r h
      | some p =>
        rw [parseValue_cons_some htag] at h
        have hline {g : String → Frame} (hg : ∀ s, (g s).OneLine = ¬ ['\r', '\n'] <:+: s.toList) :
            YieldsOneLine (readLine >>= fun line => pure (g (Utf8.lossy line))) :=
          yieldsOneLine_bind fun _ line _ hread => yieldsOneLine_pure (by
            rw [hg]
            exact oneLine_lossy (readLine_eq_ok.mp hread).2)
        exact parseTagged_forall (hline fun s => by rw [Frame.OneLine])
          (hline fun s => by rw [Frame.OneLine])
          (yieldsOneLine_bind fun _ _ _ _ => yieldsOneLine_pure (by simp [Frame.OneLine]))
          yieldsOneLine_parseBulk (yieldsOneLine_parseArray (yieldsOneLine_parseValue depth)) htag
          b f r h

/-- A frame without line ends in its texts is read back as it was written, whatever follows;
every frame that is read is one of these. -/
theorem parseFrame_writeFrame :
    (∀ f : Frame, f.Fits → f.OneLine → ∀ rest : Bytes,
      parseFrame (serializeFrame f ++ rest) = .ok (some (f, (serializeFrame f).length))) ∧
    (∀ (b : Bytes) (f : Frame) (n : ℕ), parseFrame b = .ok (some (f, n)) → f.OneLine) := by
  constructor
  · intro f hf ho rest
    exact parseFrame_eq_some_iff.mpr
      ⟨serializeFrame f, rest, rfl, rfl, wireValue_writeFrame hf ho rest⟩
  · intro b f n h
    obtain ⟨c, r, -, -, hw⟩ := parseFrame_eq_some_iff.mp h
    exact yieldsOneLine_parseValue _ b f r hw

/-- `GET k` in front of another byte. -/
theorem parseFrame_writeFrame_get :
    parseFrame (serializeFrame (.command ["GET", "k"]) ++ [0x2B]) =
      .ok (some (.command ["GET", "k"], 20)) :=
  parseFrame_writeFrame.1 (.command ["GET", "k"])
    (by simp only [Frame.command, List.map, Frame.bulkStr, Frame.Fits, Frame.AllFit]; decide)
    (by simp [Frame.command, Frame.bulkStr, Frame.OneLine, Frame.AllOneLine]) [0x2B]

end LoonyRedis
