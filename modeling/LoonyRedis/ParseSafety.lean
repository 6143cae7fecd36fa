import LoonyRedis.Lib.Cursor
import LoonyRedis.Wire

/-!
# The parser on a buffer, and where it panics

`parseValue` reads from the front of what is left. The source has a cursor on the whole
buffer : it slices, indexes and moves, adds lengths that a peer has announced, and asks for
room for as many elements as an array announces before it has seen one of them. The readers
here do the same, each operation checked as the source's are.

The bounds are never passed. The room may be too large : `Opens` says which counts a buffer
announces in the headers that are reached, and the parser panics exactly when one of them
asks for more than `isize::MAX` bytes (`parseFrameAt_isSome_iff`). Otherwise it returns what
`parseFrame` says (`parseFrameAt_eq`).

`checkedValue` is the parser with its panics, for a buffer that grows. What it has decided, a
panic too, is decided whatever arrives later (`stable_checkedValue`).
-/

namespace LoonyRedis

open Reader

/-- No allocation and no slice is larger, in bytes. -/
def isizeMax : ℕ := 2 ^ 63 - 1

/-- A byte slice. -/
abbrev Buffer := { b : Bytes // b.length ≤ isizeMax }

/-! ## The readers -/

/-- The first `i` from here on, among `n`, where a line ends. -/
def scanLine (l : Bytes) : ℕ → ℕ → Reader String ℕ
  | _, 0 => stop .incomplete
  | i, n + 1 => do
    let x ← index l i
    let ends ← if x = 0x0D then (do return decide ((← index l (i + 1)) = 0x0A)) else pure false
    if ends then return i else scanLine l (i + 1) n

section

variable (data : Bytes)

/-- Read a line, with the position behind its end computed by checked sums. -/
def readLineAt : Reader String Bytes := do
  let start ← position
  let remaining ← sliceFrom data start
  let i ← scanLine remaining 0 (remaining.length - 1)
  let past ← addChecked start i
  setPosition (← addChecked past 2)
  sliceTo remaining i

/-- A line with an integer. -/
def readIntAt (what : String) : Reader String Text.I64 := do
  let line ← readLineAt data
  match parseInt line with
  | some n => return n
  | none => stop (.invalid s!"invalid {what}: {debugBytes line}")

/-- A line of text. -/
def parseSimpleAt : Reader String Frame := do
  return .simpleString (Utf8.lossy (← readLineAt data))

/-- A line with an error message. -/
def parseErrorAt : Reader String Frame := do return .error (Utf8.lossy (← readLineAt data))

/-- A line with an integer. -/
def parseIntegerAt : Reader String Frame := do return .integer (← readIntAt data "integer")

/-- The body of a bulk string, if it is there with two more bytes. -/
def readBodyAt (len : ℕ) : Reader String Bytes := do
  let need ← addChecked len 2
  if (← remaining data) < need then stop .incomplete
  else
    let body ← sliceTo (← chunk data) len
    advance data need
    return body

/-- A length, and as many bytes. -/
def parseBulkAt : Reader String Frame := do
  let len ← readIntAt data "bulk length"
  if len.val = -1 then return .bulk none
  else if len.val < 0 then stop (.invalid s!"invalid bulk length: {len.val}")
  else return .bulk (some (← readBodyAt data len.val.toNat))

/-- Room for `count` frames of `frameSize` bytes. -/
def withCapacity (frameSize count : ℕ) : Reader String Unit :=
  if count * frameSize ≤ isizeMax then pure () else Reader.panicked

variable (frameSize : ℕ)

/-- A count, and as many values, in a vector that gets its capacity at once. -/
def parseArrayAt (value : Reader String Frame) : Reader String Frame := do
  let count ← readIntAt data "array count"
  if count.val = -1 then return .array none
  else if count.val < 0 then stop (.invalid s!"invalid array count: {count.val}")
  else
    withCapacity frameSize count.val.toNat
    return .array (some (← Reader.times value count.val.toNat))

/-- A line of words. -/
def wordsAt : Reader String Frame := do
  let line ← readLineAt data
  let s := (Utf8.fromUtf8 line).getD ""
  return .array (some ((splitWhitespace s.toList).map fun p => .bulkStr (String.ofList p)))

/-- An inline command : back to the first byte, and a line from there. -/
def parseInlineAt : Reader String Frame := do
  let pos ← position
  setPosition (← subChecked pos 1)
  wordsAt data

/-- What follows the first byte. -/
def parseTaggedAt (value : Reader String Frame) (first : UInt8) : Reader String Frame :=
  if first = 0x2B then parseSimpleAt data
  else if first = 0x2D then parseErrorAt data
  else if first = 0x3A then parseIntegerAt data
  else if first = 0x24 then parseBulkAt data
  else if first = 0x2A then parseArrayAt data frameSize value
  else parseInlineAt data

/-- One value, with arrays nested at most `depth` deep. -/
def parseValueAt : ℕ → Reader String Frame
  | 0 => stop .tooDeep
  | depth + 1 => do
    if (← remaining data) = 0 then stop .incomplete
    else
      let first ← index (← chunk data) 0
      advance data 1
      parseTaggedAt data frameSize (parseValueAt depth) first

end

/-- The result of the source's `parse_frame`, where a frame takes `frameSize` bytes of
memory; `none` if it panics. -/
def parseFrameAt (frameSize : ℕ) (b : Buffer) : Option (Except String (Option (Frame × ℕ))) :=
  match parseValueAt b.1 frameSize (b.1.length + 1) 0 with
  | .ok (f, pos) => some (.ok (some (f, pos)))
  | .error (.stop (.invalid msg)) => some (.error msg)
  | .error (.stop _) => some (.ok none)
  | .error .panicked => none

/-! ## The arrays that a buffer announces -/

/-- An array of count `c` is announced by the header at the front of the buffer, or inside
that array, after elements that are complete. Nesting is at most `depth` deep. -/
def OpensAt : ℕ → Bytes → ℕ → Prop
  | 0, _, _ => False
  | depth + 1, b, c => ∃ (r : Bytes) (count : Text.I64) (r' : Bytes),
      b = 0x2A :: r ∧ readInt "array count" r = .ok (count, r') ∧ 0 ≤ count.val ∧
        (c = count.val.toNat ∨ ∃ k < count.val.toNat, ∃ items r'',
          Parser.times (parseValue depth) k r' = .ok (items, r'') ∧ OpensAt depth r'' c)

/-- An array of count `c` is announced where the parser gets to. -/
def Opens (b : Bytes) (c : ℕ) : Prop := OpensAt (b.length + 1) b c

/-! ## Lines -/

/-- The search for the end of a line stays inside the slice, and finds the first one. -/
theorem scanLine_spec (l : Bytes) : ∀ (n i : ℕ), i + n = l.length - 1 →
    (∀ line r, splitLine (l.drop i) = some (line, r) → scanLine l i n = pure (i + line.length)) ∧
      (splitLine (l.drop i) = none → scanLine l i n = stop .incomplete)
  | 0, i, h => by
    refine ⟨fun line r hline => ?_, fun _ => rfl⟩
    have hlen : (l.drop i).length ≤ 1 := by
      rw [List.length_drop]
      omega
    obtain ⟨heq, -⟩ := splitLine_eq_some_iff.mp hline
    rw [heq] at hlen
    simp [crlf] at hlen
    omega
  | n + 1, i, h => by
    have hi : i < l.length := by omega
    have hi' : i + 1 < l.length := by omega
    have hdrop : l.drop i = l[i] :: l.drop (i + 1) := List.drop_eq_getElem_cons hi
    have hdrop' : l.drop (i + 1) = l[i + 1] :: l.drop (i + 2) := List.drop_eq_getElem_cons hi'
    have hx : l[i]? = some l[i] := List.getElem?_eq_getElem hi
    have hy : l[i + 1]? = some l[i + 1] := List.getElem?_eq_getElem hi'
    by_cases hend : l[i] = 0x0D ∧ l[i + 1] = 0x0A
    · have hsplit : splitLine (l.drop i) = some ([], l.drop (i + 2)) := by
        rw [hdrop, hdrop', hend.1, hend.2, splitLine]
      have hscan : scanLine l i (n + 1) = pure i := by
        simp only [scanLine, index_eq hx, index_eq hy, pure_bind, hend.1, hend.2, ↓reduceIte,
          decide_true]
      rw [hsplit, hscan]
      refine ⟨fun line r hline => ?_, fun hnone => by cases hnone⟩
      obtain ⟨rfl, -⟩ := Prod.mk.inj (Option.some.inj hline)
      rfl
    · have hscan : scanLine l i (n + 1) = scanLine l (i + 1) n := by
        by_cases hcr : l[i] = 0x0D
        · have hlf : l[i + 1] ≠ 0x0A := fun hlf => hend ⟨hcr, hlf⟩
          simp only [scanLine, index_eq hx, index_eq hy, pure_bind, hcr, hlf, ↓reduceIte,
            decide_false, Bool.false_eq_true]
        · simp only [scanLine, index_eq hx, pure_bind, hcr, ↓reduceIte, Bool.false_eq_true]
      have hsplit : splitLine (l.drop i) =
          (splitLine (l.drop (i + 1))).map fun p => (l[i] :: p.1, p.2) := by
        rw [hdrop]
        refine splitLine_cons ?_
        rintro ⟨hcr, r, hr⟩
        rw [hdrop'] at hr
        exact hend ⟨hcr, (List.cons.inj hr).1⟩
      obtain ⟨hsome, hnone⟩ := scanLine_spec l n (i + 1) (by omega)
      rw [hscan, hsplit]
      constructor
      · intro line r hline
        obtain ⟨⟨line', r'⟩, hline', heq⟩ := Option.map_eq_some_iff.mp hline
        obtain ⟨rfl, -⟩ := Prod.mk.inj heq
        rw [hsome line' r' hline', List.length_cons, Nat.add_comm line'.length 1, Nat.add_assoc]
      · intro hmap
        exact hnone (Option.map_eq_none_iff.mp hmap)

section

variable {data : Bytes} (hdata : data.length ≤ isizeMax)
include hdata

/-- Reading a line by its positions is reading it from the bytes left. -/
theorem follows_readLineAt : Follows data (readLineAt data) readLine fun _ => True := by
  refine .of_ends fun pos hpos => ?_
  obtain ⟨hsome, hnone⟩ := scanLine_spec (data.drop pos) ((data.drop pos).length - 1) 0 (by omega)
  rw [List.drop_zero] at hsome hnone
  have hstart : readLineAt data pos = (do
      let i ← scanLine (data.drop pos) 0 ((data.drop pos).length - 1)
      let past ← addChecked pos i
      setPosition (← addChecked past 2)
      sliceTo (data.drop pos) i : Reader String Bytes) pos := by
    rw [readLineAt, bind_ok (show (position : Reader String ℕ) pos = .ok (pos, pos) from rfl),
      sliceFrom_eq hpos, pure_bind]
  rw [hstart]
  unfold readLine
  cases hsplit : splitLine (data.drop pos) with
  | none =>
    rw [hnone hsplit]
    rfl
  | some x =>
    obtain ⟨line, r⟩ := x
    obtain ⟨heq, -⟩ := splitLine_eq_some_iff.mp hsplit
    have hlen : (data.drop pos).length = line.length + 2 + r.length := by
      rw [heq]
      simp only [crlf, List.length_append, List.length_cons, List.length_nil]
    rw [List.length_drop] at hlen
    have hmax : data.length < 2 ^ 63 := by
      rw [isizeMax] at hdata
      omega
    have hline : (data.drop pos).take line.length = line := by
      rw [heq, List.append_assoc, List.take_left]
    have hrest : r = data.drop (pos + line.length + 2) := by
      have hr : (data.drop pos).drop (line ++ crlf).length = r := by rw [heq, List.drop_left]
      rw [List.drop_drop] at hr
      rw [← hr]
      congr 1
      simp [crlf]
      omega
    rw [hsome line r hsplit, pure_bind, Nat.zero_add, addChecked_eq (by omega), pure_bind,
      addChecked_eq (by omega), pure_bind, sliceTo_eq (by rw [List.length_drop]; omega), hline]
    exact ⟨pos + line.length + 2, rfl, by omega, hrest⟩

/-- Reading an integer by its positions is reading it from the bytes left. -/
theorem follows_readIntAt (what : String) :
    Follows data (readIntAt data what) (readInt what) fun _ => True := by
  refine follows_bind_of_safe (follows_readLineAt hdata) fun line => ?_
  cases parseInt line with
  | some n => exact follows_pure n
  | none => exact follows_stop _

theorem follows_parseSimpleAt : Follows data (parseSimpleAt data) parseSimple fun _ => True :=
  follows_bind_of_safe (follows_readLineAt hdata) fun _ => follows_pure _

theorem follows_parseErrorAt : Follows data (parseErrorAt data) parseError fun _ => True :=
  follows_bind_of_safe (follows_readLineAt hdata) fun _ => follows_pure _

theorem follows_parseIntegerAt : Follows data (parseIntegerAt data) parseInteger fun _ => True :=
  follows_bind_of_safe (follows_readIntAt hdata _) fun _ => follows_pure _

theorem follows_wordsAt : Follows data (wordsAt data) parseInline fun _ => True :=
  follows_bind_of_safe (follows_readLineAt hdata) fun _ => follows_pure _

omit hdata in
/-- A length that fits in an `i64` can be added to, and its body is inside the buffer once
enough bytes are left. -/
theorem follows_readBodyAt {len : ℕ} (hlen : len < 2 ^ 63) :
    Follows data (readBodyAt data len) (readBody len) fun _ => True := by
  refine .of_ends fun pos hpos => ?_
  have hremaining : (remaining data : Reader String ℕ) pos = .ok (data.length - pos, pos) := rfl
  have hchunk : (chunk data : Reader String Bytes) pos = .ok (data.drop pos, pos) := rfl
  have hfront : readBodyAt data len pos =
      (if data.length - pos < len + 2 then stop .incomplete
      else do
        let body ← sliceTo (← chunk data) len
        advance data (len + 2)
        return body : Reader String Bytes) pos := by
    rw [readBodyAt, addChecked_eq (by omega), pure_bind, bind_ok hremaining]
  rw [hfront, readBody, List.length_drop]
  by_cases hshort : data.length - pos < len + 2
  · rw [if_pos hshort, if_pos hshort]
    rfl
  · rw [if_neg hshort, if_neg hshort, bind_ok hchunk,
      sliceTo_eq (by rw [List.length_drop]; omega), pure_bind,
      bind_ok (advance_eq (by omega : pos + (len + 2) ≤ data.length))]
    refine ⟨pos + (len + 2), rfl, by omega, ?_⟩
    rw [List.drop_drop]

/-- Reading a bulk string by its positions is reading it from the bytes left. -/
theorem follows_parseBulkAt : Follows data (parseBulkAt data) parseBulk fun _ => True := by
  refine follows_bind_of_safe (follows_readIntAt hdata _) fun len => ?_
  have hmax := len.2.2
  simp only [Text.i64Max] at hmax
  split
  · exact follows_pure _
  · split
    · exact follows_stop _
    · exact follows_bind_of_safe (follows_readBodyAt (by omega)) fun _ => follows_pure _

end

/-! ## Arrays -/

/-- Making room reads no byte. -/
theorem follows_withCapacity (data : Bytes) (frameSize count : ℕ) :
    Follows data (withCapacity frameSize count) (pure ())
      fun _ => count * frameSize ≤ isizeMax where
  ends pos hpos hfits := by
    rw [withCapacity, if_pos hfits]
    exact ⟨pos, rfl, hpos, rfl⟩
  panics pos hpos hnot := by
    rw [withCapacity, if_neg hnot]
    rfl

section

variable {data : Bytes} (hdata : data.length ≤ isizeMax) {frameSize : ℕ}
include hdata

/-- An array is safe if there is room for it, and each of its elements that is reached is
safe. -/
theorem follows_parseArrayAt {p : Reader String Frame} {q : WireParser Frame}
    {S : Bytes → Prop} (h : Follows data p q S) :
    Follows data (parseArrayAt data frameSize p) (parseArray q) fun b =>
      ∀ (count : Text.I64) (r : Bytes), readInt "array count" b = .ok (count, r) →
        0 ≤ count.val → count.val.toNat * frameSize ≤ isizeMax ∧
          ∀ k < count.val.toNat, ∀ items r', Parser.times q k r = .ok (items, r') → S r' := by
  refine (follows_bind (follows_readIntAt hdata _) (T := fun count r => 0 ≤ count.val →
    count.val.toNat * frameSize ≤ isizeMax ∧
      ∀ k < count.val.toNat, ∀ items r', Parser.times q k r = .ok (items, r') → S r')
    fun count => ?_).congr fun b => by simp
  split
  · next hnull => exact (follows_pure _).congr fun r => by simp [hnull]
  · split
    · next hneg => exact (follows_stop _).congr fun r => by simp [Int.not_le.mpr hneg]
    · next hneg =>
      have hbody : Follows data
          (withCapacity frameSize count.val.toNat >>= fun _ =>
            Reader.times p count.val.toNat >>= fun items => pure (Frame.array (some items)))
          (pure () >>= fun _ =>
            Parser.times q count.val.toNat >>= fun items => pure (Frame.array (some items))) _ :=
        follows_bind (follows_withCapacity data frameSize _) fun _ =>
          follows_bind_of_safe (follows_times h _) fun _ => follows_pure _
      rw [pure_bind] at hbody
      refine hbody.congr fun r => ?_
      constructor
      · rintro ⟨hfits, hitems⟩ -
        exact ⟨hfits, hitems () r rfl⟩
      · intro hall
        obtain ⟨hfits, hitems⟩ := hall (Int.not_lt.mp hneg)
        refine ⟨hfits, fun _ r' hr' => ?_⟩
        obtain ⟨-, rfl⟩ := Prod.mk.inj (Except.ok.inj hr')
        exact hitems

/-- Every array that is announced where the parser gets to fits. -/
def AllFitAt (frameSize depth : ℕ) (b : Bytes) : Prop :=
  ∀ c, OpensAt depth b c → c * frameSize ≤ isizeMax

omit hdata in

/-- The arrays of an array fit if it fits itself and its elements do. -/
theorem allFitAt_star {depth : ℕ} {r : Bytes} : AllFitAt frameSize (depth + 1) (0x2A :: r) ↔
    ∀ (count : Text.I64) (r' : Bytes), readInt "array count" r = .ok (count, r') →
      0 ≤ count.val → count.val.toNat * frameSize ≤ isizeMax ∧
        ∀ k < count.val.toNat, ∀ items r'',
          Parser.times (parseValue depth) k r' = .ok (items, r'') →
            AllFitAt frameSize depth r'' := by
  constructor
  · intro hall count r' hcount hpos
    refine ⟨hall _ ⟨r, count, r', rfl, hcount, hpos, .inl rfl⟩, ?_⟩
    intro k hk items r'' htimes c hopens
    exact hall c ⟨r, count, r', rfl, hcount, hpos, .inr ⟨k, hk, items, r'', htimes, hopens⟩⟩
  · rintro hall c ⟨r₁, count, r', heq, hcount, hpos, hcases⟩
    obtain rfl := (List.cons.inj heq).2
    obtain ⟨hfits, hitems⟩ := hall count r' hcount hpos
    rcases hcases with rfl | ⟨k, hk, items, r'', htimes, hopens⟩
    · exact hfits
    · exact hitems k hk items r'' htimes c hopens

omit hdata in

/-- A frame that is no array makes no room. -/
theorem allFitAt_of_ne {depth : ℕ} {b : Bytes} (h : ∀ r, b ≠ 0x2A :: r) :
    AllFitAt frameSize (depth + 1) b := by
  rintro c ⟨r, -, -, heq, -⟩
  exact absurd heq (h r)

omit hdata in
/-- The first byte is there, and the cursor moves past it. -/
theorem parseValueAt_succ {depth pos : ℕ} {first : UInt8} {r : Bytes}
    (hfirst : data.drop pos = first :: r) :
    parseValueAt data frameSize (depth + 1) pos =
      parseTaggedAt data frameSize (parseValueAt data frameSize depth) first (pos + 1) := by
  have hlen := congrArg List.length hfirst
  rw [List.length_drop, List.length_cons] at hlen
  have hremaining : (remaining data : Reader String ℕ) pos = .ok (data.length - pos, pos) := rfl
  have hchunk : (chunk data : Reader String Bytes) pos = .ok (data.drop pos, pos) := rfl
  have hindex : (data.drop pos)[0]? = some first := by rw [hfirst]; rfl
  rw [parseValueAt, bind_ok hremaining, if_neg (by omega), bind_ok hchunk, index_eq hindex,
    pure_bind, bind_ok (advance_eq (by omega : pos + 1 ≤ data.length))]

/-- An inline command is read from its first byte. -/
theorem endsAs_parseInlineAt {pos : ℕ} (hpos : pos ≤ data.length) :
    EndsAs data (parseInlineAt data (pos + 1)) (parseInline (data.drop pos)) := by
  have hback : parseInlineAt data (pos + 1) = wordsAt data pos := by
    rw [parseInlineAt,
      bind_ok (show (position : Reader String ℕ) (pos + 1) = .ok (pos + 1, pos + 1) from rfl),
      subChecked_eq (Nat.le_add_left 1 pos), pure_bind]
    rfl
  rw [hback]
  exact (follows_wordsAt hdata).ends pos hpos trivial

/-- A value that is not an array ends as the parser says. -/
theorem endsAs_parseTaggedAt {depth pos : ℕ} {first : UInt8} (hne : first ≠ 0x2A)
    (hfirst : data.drop pos = first :: data.drop (pos + 1)) (hpos : pos + 1 ≤ data.length) :
    EndsAs data
      (parseTaggedAt data frameSize (parseValueAt data frameSize depth) first (pos + 1))
      (parseValue (depth + 1) (first :: data.drop (pos + 1))) := by
  by_cases hsimple : first = 0x2B
  · subst hsimple
    exact (follows_parseSimpleAt hdata).ends _ hpos trivial
  by_cases herror : first = 0x2D
  · subst herror
    exact (follows_parseErrorAt hdata).ends _ hpos trivial
  by_cases hinteger : first = 0x3A
  · subst hinteger
    exact (follows_parseIntegerAt hdata).ends _ hpos trivial
  by_cases hbulk : first = 0x24
  · subst hbulk
    exact (follows_parseBulkAt hdata).ends _ hpos trivial
  have htag : parseTagged (parseValue depth) first = none := by
    simp [parseTagged, hsimple, herror, hinteger, hbulk, hne]
  have hinline : parseTaggedAt data frameSize (parseValueAt data frameSize depth) first =
      parseInlineAt data := by
    simp [parseTaggedAt, hsimple, herror, hinteger, hbulk, hne]
  rw [hinline, parseValue_cons_none htag, ← hfirst]
  exact endsAs_parseInlineAt hdata (Nat.le_of_succ_le hpos)

/-- A value ends as the parser says if every array fits, and panics otherwise. -/
theorem follows_parseValueAt : ∀ depth,
    Follows data (parseValueAt data frameSize depth) (parseValue depth) (AllFitAt frameSize depth)
  | 0 => (follows_stop _).congr fun b => by simp [AllFitAt, OpensAt]
  | depth + 1 => by
    have harray : Follows data (parseArrayAt data frameSize _) _ _ :=
      follows_parseArrayAt hdata (follows_parseValueAt depth)
    have hstep : ∀ pos ≤ data.length,
        (AllFitAt frameSize (depth + 1) (data.drop pos) →
          EndsAs data (parseValueAt data frameSize (depth + 1) pos)
            (parseValue (depth + 1) (data.drop pos))) ∧
        (¬ AllFitAt frameSize (depth + 1) (data.drop pos) →
          parseValueAt data frameSize (depth + 1) pos = .error .panicked) := by
      intro pos hpos
      cases hrest : data.drop pos with
      | nil =>
        have hlen := congrArg List.length hrest
        rw [List.length_drop, List.length_nil] at hlen
        have hremaining : (remaining data : Reader String ℕ) pos = .ok (data.length - pos, pos) :=
          rfl
        refine ⟨fun _ => ?_, fun hnot => absurd (allFitAt_of_ne (by simp)) hnot⟩
        rw [parseValueAt, bind_ok hremaining, if_pos hlen]
        rfl
      | cons first r =>
        have hr : r = data.drop (pos + 1) := by
          rw [← List.drop_drop, hrest]
          rfl
        have hlen := congrArg List.length hrest
        rw [List.length_drop, List.length_cons] at hlen
        have hpos' : pos + 1 ≤ data.length := by omega
        rw [parseValueAt_succ hrest, hr]
        by_cases hstar : first = 0x2A
        · subst hstar
          rw [allFitAt_star, parseValue_cons_some parseTagged_array]
          exact ⟨harray.ends _ hpos', harray.panics _ hpos'⟩
        · refine ⟨fun _ => ?_, fun hnot => absurd (allFitAt_of_ne ?_) hnot⟩
          · exact endsAs_parseTaggedAt hdata hstar (hr ▸ hrest) hpos'
          · intro r' heq
            exact hstar (List.cons.inj heq).1
    exact ⟨fun pos hpos => (hstep pos hpos).1, fun pos hpos => (hstep pos hpos).2⟩

end

/-! ## Frames -/

/-- Where every array fits, the source returns what `parseFrame` says. -/
theorem parseFrameAt_eq {frameSize : ℕ} {b : Buffer}
    (h : ∀ count, Opens b.1 count → count * frameSize ≤ isizeMax) :
    parseFrameAt frameSize b = some (parseFrame b.1) := by
  have hends := (follows_parseValueAt b.2 (b.1.length + 1)).ends 0 (Nat.zero_le _) h
  rw [List.drop_zero] at hends
  unfold parseFrameAt parseFrame wireValue
  cases hparse : parseValue (b.1.length + 1) b.1 with
  | error s =>
    rw [hparse] at hends
    have hstop : parseValueAt b.1 frameSize (b.1.length + 1) 0 = .error (.stop s) := hends
    rw [hstop]
    cases s <;> rfl
  | ok x =>
    obtain ⟨f, r⟩ := x
    rw [hparse] at hends
    obtain ⟨pos, hok, hle, rfl⟩ := hends
    rw [hok]
    simp only [List.length_drop]
    congr 4
    omega

/-- The parser panics on an array that is announced too large. -/
theorem parseFrameAt_eq_none {frameSize : ℕ} {b : Buffer}
    (h : ¬ ∀ count, Opens b.1 count → count * frameSize ≤ isizeMax) :
    parseFrameAt frameSize b = none := by
  have hpanics := (follows_parseValueAt b.2 (b.1.length + 1)).panics 0 (Nat.zero_le _) h
  rw [parseFrameAt, hpanics]

/-- On every byte buffer the parser returns without a panic if and only if no array that
it gets to announces more elements than there can be room for. -/
theorem parseFrameAt_isSome_iff (frameSize : ℕ) (b : Buffer) :
    (parseFrameAt frameSize b).isSome ↔
      ∀ count, Opens b.1 count → count * frameSize ≤ isizeMax := by
  constructor
  · intro hsome
    by_contra hnot
    rw [parseFrameAt_eq_none hnot] at hsome
    cases hsome
  · intro hall
    rw [parseFrameAt_eq hall]
    rfl

/-- The header of the largest array that a count can announce. -/
def hugeArray : Buffer := ⟨Utf8.toBytes "*9223372036854775807\r\n", by decide⟩

/-- 22 bytes make the parser panic, already if a frame takes no more than 32 bytes. -/
theorem hugeArray_panics : (parseFrameAt 32 hugeArray).isSome = false := by
  decide

/-! ## What arrives later -/

section Later

open Parser

/-- `times` does not depend on a bound that is deep enough. -/
theorem times_parseValue_eq {depth : ℕ} : ∀ (k : ℕ) {b : Bytes}, b.length < depth →
    Parser.times (parseValue depth) k b = Parser.times wireValue k b
  | 0, _, _ => rfl
  | k + 1, b, hlt => by
    rw [Parser.times, Parser.times, Parser.bind_eq, Parser.bind_eq, parseValue_eq_wireValue hlt]
    cases hw : wireValue b with
    | error e => rfl
    | ok x =>
      obtain ⟨f, r⟩ := x
      obtain ⟨c, rfl, hc⟩ := consumes_wireValue _ _ _ hw
      rw [List.length_append] at hlt
      simp only [Parser.bind_eq, times_parseValue_eq k (show r.length < depth by omega)]

/-- The elements of an array come after its header. -/
theorem length_lt_of_times {depth k : ℕ} {what : String} {r r' r'' : Bytes} {count : Text.I64}
    {items : List Frame} (hcount : readInt what r = .ok (count, r'))
    (htimes : Parser.times (parseValue depth) k r' = .ok (items, r'')) :
    r'.length < r.length ∧ r''.length ≤ r'.length := by
  obtain ⟨c, rfl, hc⟩ := consumes_readInt what _ _ _ hcount
  obtain ⟨c', rfl, -⟩ := consumes_times ((consumes_parseValue depth).mono (Nat.zero_le 1)) k _ _ _
    htimes
  simp only [List.length_append]
  omega

/-- More depth than bytes opens no further array. -/
theorem OpensAt.of_lt {c : ℕ} : ∀ {depth depth' : ℕ} {b : Bytes}, b.length < depth →
    b.length < depth' → OpensAt depth b c → OpensAt depth' b c
  | depth + 1, depth' + 1, b, hlt, hlt', h => by
    obtain ⟨r, count, r', rfl, hcount, hpos, hcases⟩ := h
    rw [List.length_cons] at hlt hlt'
    refine ⟨r, count, r', rfl, hcount, hpos, hcases.imp id ?_⟩
    rintro ⟨k, hk, items, r'', htimes, hopens⟩
    obtain ⟨hlen, hlen'⟩ := length_lt_of_times hcount htimes
    refine ⟨k, hk, items, r'', ?_, OpensAt.of_lt (by omega) (by omega) hopens⟩
    rw [times_parseValue_eq k (by omega)] at htimes ⊢
    exact htimes

/-- The arrays that a buffer announces, without a bound on the depth. -/
theorem opens_iff {b : Bytes} {c : ℕ} : Opens b c ↔ ∃ (r : Bytes) (count : Text.I64) (r' : Bytes),
    b = 0x2A :: r ∧ readInt "array count" r = .ok (count, r') ∧ 0 ≤ count.val ∧
      (c = count.val.toNat ∨ ∃ k < count.val.toNat, ∃ items r'',
        Parser.times wireValue k r' = .ok (items, r'') ∧ Opens r'' c) := by
  constructor
  · rintro ⟨r, count, r', rfl, hcount, hpos, hcases⟩
    refine ⟨r, count, r', rfl, hcount, hpos, hcases.imp id ?_⟩
    rintro ⟨k, hk, items, r'', htimes, hopens⟩
    obtain ⟨hlen, hlen'⟩ := length_lt_of_times hcount htimes
    have hdeep : r''.length < (0x2A :: r).length := by
      rw [List.length_cons]
      omega
    rw [times_parseValue_eq k (by rw [List.length_cons]; omega)] at htimes
    exact ⟨k, hk, items, r'', htimes, hopens.of_lt hdeep (Nat.lt_succ_self _)⟩
  · rintro ⟨r, count, r', rfl, hcount, hpos, hcases⟩
    refine ⟨r, count, r', rfl, hcount, hpos, hcases.imp id ?_⟩
    rintro ⟨k, hk, items, r'', htimes, hopens⟩
    obtain ⟨u, rfl, hu⟩ := consumes_readInt "array count" _ _ _ hcount
    obtain ⟨v, rfl, -⟩ := consumes_times (consumes_wireValue.mono (Nat.zero_le 1)) k _ _ _ htimes
    simp only [List.length_cons, List.length_append]
    refine ⟨k, hk, items, r'', ?_, hopens.of_lt (Nat.lt_succ_self _) (by omega)⟩
    rw [times_parseValue_eq k (by rw [List.length_append]; omega)]
    exact htimes

/-- What is announced stays announced. -/
theorem Opens.append {b : Bytes} {c : ℕ} (x : Bytes) (h : Opens b c) : Opens (b ++ x) c := by
  induction hn : b.length using Nat.strongRecOn generalizing b with
  | _ n ih =>
    obtain ⟨r, count, r', rfl, hcount, hpos, hcases⟩ := opens_iff.mp h
    refine opens_iff.mpr ⟨r ++ x, count, r' ++ x, rfl, (stable_readInt _).ok hcount x, hpos,
      hcases.imp id ?_⟩
    rintro ⟨k, hk, items, r'', htimes, hopens⟩
    obtain ⟨u, rfl, hu⟩ := consumes_readInt "array count" _ _ _ hcount
    obtain ⟨v, rfl, -⟩ := consumes_times (consumes_wireValue.mono (Nat.zero_le 1)) k _ _ _ htimes
    simp only [List.length_cons, List.length_append] at hn
    exact ⟨k, hk, items, r'' ++ x, (stable_times stable_wireValue k).ok htimes x,
      ih r''.length (by omega) hopens rfl⟩

/-- If it is decided what a buffer says, then it announces nothing that arrives later. -/
theorem opens_of_append {b x : Bytes} {c : ℕ} (hdecided : wireValue b ≠ .error .incomplete)
    (h : Opens (b ++ x) c) : Opens b c := by
  induction hn : b.length using Nat.strongRecOn generalizing b with
  | _ n ih =>
    obtain ⟨r, count, r', heq, hcount, hpos, hcases⟩ := opens_iff.mp h
    cases b with
    | nil => exact absurd rfl hdecided
    | cons first r₀ =>
      rw [List.cons_append] at heq
      obtain ⟨rfl, rfl⟩ := List.cons.inj heq
      have harray : wireValue (0x2A :: r₀) = parseArray (parseValue (r₀.length + 1)) r₀ :=
        parseValue_cons_some parseTagged_array
      rw [harray] at hdecided
      cases hread : readInt "array count" r₀ with
      | error e =>
        cases e with
        | incomplete => exact absurd (bind_error hread) hdecided
        | invalid e =>
          rw [(stable_readInt _).invalid hread x] at hcount
          cases hcount
        | tooDeep => exact absurd hread (shallow_readInt _ _ _ (Nat.lt_succ_self _))
      | ok y =>
        obtain ⟨count', r₁⟩ := y
        rw [(stable_readInt _).ok hread x] at hcount
        obtain ⟨rfl, rfl⟩ := Prod.mk.inj (Except.ok.inj hcount)
        refine opens_iff.mpr ⟨r₀, count', r₁, rfl, hread, hpos, hcases.imp id ?_⟩
        rintro ⟨k, hk, items, r'', htimes, hopens⟩
        obtain ⟨u, rfl, hu⟩ := consumes_readInt "array count" _ _ _ hread
        have hitems : Parser.times wireValue count'.val.toNat r₁ ≠ .error .incomplete := by
          intro hinc
          refine hdecided ?_
          have hnull : ¬ count'.val = -1 := by omega
          rw [parseArray, bind_ok hread, if_neg hnull, if_neg (Int.not_lt.mpr hpos)]
          refine bind_error ?_
          rw [times_parseValue_eq _ (by rw [List.length_append]; omega)]
          exact hinc
        obtain ⟨r₂, htimes', rfl, hnext⟩ :=
          stable_wireValue.of_times_append wireValue_ne_tooDeep hk hitems htimes
        obtain ⟨v, rfl, -⟩ := consumes_times (consumes_wireValue.mono (Nat.zero_le 1)) k _ _ _
          htimes'
        simp only [List.length_cons, List.length_append] at hn
        exact ⟨k, hk, items, r₂, htimes', ih r₂.length (by omega) hnext hopens rfl⟩

/-- There is room for every array that a buffer announces. -/
def HasRoom (frameSize : ℕ) (b : Bytes) : Prop :=
  ∀ count, Opens b count → count * frameSize ≤ isizeMax

/-- Why a parser that panics stops at a buffer for good. -/
inductive Fault where
  | protocol (msg : String)
  | panic
  deriving DecidableEq

/-- What a parser that may panic makes of the end of one that does not. -/
def Fault.ofStop : Stop String → Stop Fault
  | .incomplete => .incomplete
  | .invalid msg => .invalid (.protocol msg)
  | .tooDeep => .tooDeep

open Classical in
/-- One value, or the panic at an array that there is no room for. -/
noncomputable def checkedValue (frameSize : ℕ) : Parser UInt8 Fault Frame := fun b =>
  if HasRoom frameSize b then (wireValue b).mapError Fault.ofStop
  else .error (.invalid .panic)

variable {frameSize : ℕ} {b r : Bytes} {f : Frame}

/-- With room for its arrays, a value is read as by the total parser. -/
theorem checkedValue_of_hasRoom (h : HasRoom frameSize b) :
    checkedValue frameSize b = (wireValue b).mapError Fault.ofStop := if_pos h

/-- A value is read if and only if there is room and the total parser reads it. -/
theorem checkedValue_eq_ok : checkedValue frameSize b = .ok (f, r) ↔
    HasRoom frameSize b ∧ wireValue b = .ok (f, r) := by
  unfold checkedValue
  split
  · next hroom =>
    rw [and_iff_right hroom]
    cases wireValue b with
    | ok x => simp [Except.mapError]
    | error e => simp [Except.mapError]
  · next hroom => simp [hroom]

/-- Reading a value panics if and only if there is no room for its arrays. -/
theorem checkedValue_eq_panic :
    checkedValue frameSize b = .error (.invalid .panic) ↔ ¬ HasRoom frameSize b := by
  unfold checkedValue
  split
  · next hroom =>
    refine iff_of_false ?_ (not_not_intro hroom)
    cases wireValue b with
    | ok x => simp [Except.mapError]
    | error e => cases e <;> simp [Except.mapError, Fault.ofStop]
  · next hroom => exact iff_of_true rfl hroom

/-- A protocol error is one of the total parser, with room for the arrays before it. -/
theorem checkedValue_eq_protocol {msg : String} :
    checkedValue frameSize b = .error (.invalid (.protocol msg)) ↔
      HasRoom frameSize b ∧ wireValue b = .error (.invalid msg) := by
  unfold checkedValue
  split
  · next hroom =>
    rw [and_iff_right hroom]
    cases wireValue b with
    | ok x => simp [Except.mapError]
    | error e => cases e <;> simp [Except.mapError, Fault.ofStop]
  · next hroom => simp [hroom]

/-- The depth that is given is enough for the bytes that are there. -/
theorem checkedValue_ne_tooDeep (b : Bytes) : checkedValue frameSize b ≠ .error .tooDeep := by
  have hne := wireValue_ne_tooDeep b
  unfold checkedValue
  split
  · cases hw : wireValue b with
    | ok x => simp [Except.mapError]
    | error e =>
      rw [hw] at hne
      cases e <;> simp_all [Except.mapError, Fault.ofStop]
  · simp

/-- Once it is decided what a buffer says, there is room in it whatever follows. -/
theorem HasRoom.append (hroom : HasRoom frameSize b)
    (hdecided : wireValue b ≠ .error .incomplete) (x : Bytes) : HasRoom frameSize (b ++ x) :=
  fun c hopens => hroom c (opens_of_append hdecided hopens)

/-- What is decided, a panic too, stays decided. -/
theorem stable_checkedValue : Stable (checkedValue frameSize) where
  ok {b f r} h x := by
    obtain ⟨hroom, hw⟩ := checkedValue_eq_ok.mp h
    have hdecided : wireValue b ≠ .error .incomplete := by
      rw [hw]
      exact fun heq => nomatch heq
    exact checkedValue_eq_ok.mpr ⟨hroom.append hdecided x, stable_wireValue.ok hw x⟩
  invalid {b e} h x := by
    cases e with
    | protocol msg =>
      obtain ⟨hroom, hw⟩ := checkedValue_eq_protocol.mp h
      have hdecided : wireValue b ≠ .error .incomplete := by
        rw [hw]
        exact fun heq => nomatch heq
      exact checkedValue_eq_protocol.mpr ⟨hroom.append hdecided x, stable_wireValue.invalid hw x⟩
    | panic =>
      rw [checkedValue_eq_panic] at h ⊢
      exact fun hroom => h fun c hopens => hroom c (hopens.append x)

/-- A value that is read takes at least one byte. -/
theorem consumes_checkedValue : Consumes 1 (checkedValue frameSize) :=
  fun b f r h => consumes_wireValue b f r (checkedValue_eq_ok.mp h).2

/-- A frame is read from its own bytes alone. -/
theorem local_checkedValue : Local (checkedValue frameSize) := by
  intro b f r h
  obtain ⟨hroom, hw⟩ := checkedValue_eq_ok.mp h
  obtain ⟨c, rfl, hc⟩ := local_wireValue _ _ _ hw
  have halone : checkedValue frameSize c = .ok (f, []) := by
    have hc' := hc []
    rw [List.append_nil] at hc'
    exact checkedValue_eq_ok.mpr ⟨fun n hopens => hroom n (hopens.append r), hc'⟩
  exact ⟨c, rfl, stable_checkedValue.ok halone⟩

/-- The source's `parse_frame`, in terms of the parser with its panics. -/
theorem parseFrameAt_eq_checked (b : Buffer) :
    parseFrameAt frameSize b = match checkedValue frameSize b.1 with
      | .ok (f, r) => some (.ok (some (f, b.1.length - r.length)))
      | .error (.invalid (.protocol msg)) => some (.error msg)
      | .error (.invalid .panic) => none
      | .error _ => some (.ok none) := by
  by_cases hroom : HasRoom frameSize b.1
  · rw [parseFrameAt_eq hroom, checkedValue_of_hasRoom hroom, parseFrame]
    cases wireValue b.1 with
    | ok x => rfl
    | error e => cases e <;> rfl
  · rw [parseFrameAt_eq_none hroom, checkedValue_eq_panic.mpr hroom]

end Later

end LoonyRedis
