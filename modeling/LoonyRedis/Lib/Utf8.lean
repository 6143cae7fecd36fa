import LoonyRedis.Lib.Text
import Mathlib.Data.List.Basic

/-!
# Text in bytes

The byte strings of a wire protocol against the strings of the program : `toBytes` is the
UTF-8 encoding, `fromUtf8` the decoder that refuses ill-formed input and `lossy` the one
that puts U+FFFD in place of each maximal ill-formed part. Both decoders invert the
encoder (`lossy_toBytes`, `fromUtf8_toBytes`); `lossy` is not injective.

Decoding one character is the core library's `ByteArray.utf8DecodeChar?`.
-/

/-- A byte string. -/
abbrev Bytes := List UInt8

namespace Utf8

/-- The UTF-8 encoding. -/
def toBytes (s : String) : Bytes :=
  s.toList.flatMap String.utf8EncodeChar

/-- The character at the head of `b`, if `b` starts with a well-formed one. -/
def decodeChar (b : Bytes) : Option Char :=
  (b.take 4).toByteArray.utf8DecodeChar? 0

/-- Whether `y` may follow the lead byte `x` of a sequence of three or four bytes. -/
def mayFollow (x y : UInt8) : Bool :=
  if x = 0xE0 then 0xA0 ≤ y && y ≤ 0xBF
  else if x = 0xED then 0x80 ≤ y && y ≤ 0x9F
  else if x = 0xF0 then 0x90 ≤ y && y ≤ 0xBF
  else if x = 0xF4 then 0x80 ≤ y && y ≤ 0x8F
  else 0xE1 ≤ x && x ≤ 0xF3 && 0x80 ≤ y && y ≤ 0xBF

/-- The length of the ill-formed part at the head of `b` : the longest beginning of a
well-formed sequence, and at least one byte. -/
def badLen : Bytes → ℕ
  | x :: y :: z :: _ =>
    if mayFollow x y then
      if 0xF0 ≤ x && 0x80 ≤ z && z ≤ 0xBF then 3 else 2
    else 1
  | [x, y] => if mayFollow x y then 2 else 1
  | _ => 1

/-- Decode at most `fuel` characters, with U+FFFD for each ill-formed part. -/
def lossyChars : ℕ → Bytes → List Char
  | 0, _ => []
  | _, [] => []
  | fuel + 1, b =>
    match decodeChar b with
    | some c => c :: lossyChars fuel (b.drop c.utf8Size)
    | none => '\uFFFD' :: lossyChars fuel (b.drop (badLen b))

/-- Decode, with U+FFFD for each ill-formed part. -/
def lossy (b : Bytes) : String :=
  String.ofList (lossyChars b.length b)

/-- Decode at most `fuel` characters of a well-formed byte string. -/
def strictChars : ℕ → Bytes → Option (List Char)
  | _, [] => some []
  | 0, _ => none
  | fuel + 1, b =>
    match decodeChar b with
    | some c => (strictChars fuel (b.drop c.utf8Size)).map (c :: ·)
    | none => none

/-- Decode a well-formed byte string. -/
def fromUtf8 (b : Bytes) : Option String :=
  (strictChars b.length b).map String.ofList

/-- An encoded character is decoded, whatever follows. -/
theorem decodeChar_encode_append (c : Char) (b : Bytes) :
    decodeChar (String.utf8EncodeChar c ++ b) = some c := by
  have hlen : (String.utf8EncodeChar c).length ≤ 4 := by
    rw [String.length_utf8EncodeChar]
    exact Char.utf8Size_le_four c
  rw [decodeChar, List.take_append, List.take_of_length_le hlen, List.toByteArray_append]
  exact ByteArray.utf8DecodeChar?_utf8EncodeChar_append

/-- After an encoded character comes what follows it. -/
theorem drop_utf8Size_encode_append (c : Char) (b : Bytes) :
    (String.utf8EncodeChar c ++ b).drop c.utf8Size = b := by
  rw [← String.length_utf8EncodeChar, List.drop_left]

/-- An encoded character is at least one byte. -/
theorem encode_append_ne_nil (c : Char) (b : Bytes) : String.utf8EncodeChar c ++ b ≠ [] := by
  intro h
  have hlen := congrArg List.length h
  rw [List.length_append, String.length_utf8EncodeChar, List.length_nil] at hlen
  have := Char.utf8Size_pos c
  omega

/-- The lossy decoder gives encoded characters back. -/
theorem lossyChars_flatMap :
    ∀ (cs : List Char) (fuel : ℕ), cs.length ≤ fuel →
      lossyChars fuel (cs.flatMap String.utf8EncodeChar) = cs
  | [], fuel, _ => by cases fuel <;> rfl
  | c :: cs, fuel + 1, h => by
    rw [List.flatMap_cons, lossyChars, decodeChar_encode_append]
    · simp only [drop_utf8Size_encode_append, List.cons.injEq, true_and]
      exact lossyChars_flatMap cs fuel (by simpa using h)
    · exact encode_append_ne_nil c _

/-- The strict decoder gives encoded characters back. -/
theorem strictChars_flatMap :
    ∀ (cs : List Char) (fuel : ℕ), cs.length ≤ fuel →
      strictChars fuel (cs.flatMap String.utf8EncodeChar) = some cs
  | [], fuel, _ => by cases fuel <;> rfl
  | c :: cs, fuel + 1, h => by
    rw [List.flatMap_cons, strictChars, decodeChar_encode_append]
    · simp only [drop_utf8Size_encode_append,
        strictChars_flatMap cs fuel (by simpa using h), Option.map_some]
    · exact encode_append_ne_nil c _

/-- A character takes at least one byte. -/
theorem length_le_length_flatMap :
    ∀ cs : List Char, cs.length ≤ (cs.flatMap String.utf8EncodeChar).length
  | [] => Nat.le_refl 0
  | c :: cs => by
    have := length_le_length_flatMap cs
    have := Char.utf8Size_pos c
    rw [List.flatMap_cons, List.length_append, String.length_utf8EncodeChar, List.length_cons]
    omega

/-- Decoding what was encoded gives the string back. -/
@[simp] theorem lossy_toBytes (s : String) : lossy (toBytes s) = s := by
  rw [lossy, toBytes, lossyChars_flatMap _ _ (length_le_length_flatMap _), String.ofList_toList]

@[simp] theorem fromUtf8_toBytes (s : String) : fromUtf8 (toBytes s) = some s := by
  rw [fromUtf8, toBytes, strictChars_flatMap _ _ (length_le_length_flatMap _), Option.map_some,
    String.ofList_toList]

/-- Texts are told apart by their bytes. -/
theorem toBytes_injective : Function.Injective toBytes :=
  Function.LeftInverse.injective lossy_toBytes

example : lossy [0x66, 0xE2, 0x82, 0xFF, 0x6F] = "f\uFFFD\uFFFDo" := by decide

/-! ## Characters of one byte -/

/-- A byte below 128 in the encoding of a character is all of it. -/
theorem encode_of_ascii {c : Char} {x : UInt8} (hx : x ∈ String.utf8EncodeChar c)
    (hlt : x.toNat < 128) :
    String.utf8EncodeChar c = [x] ∧ c.toNat = x.toNat := by
  have hofNat (n : ℕ) (h : n < 256) : (UInt8.ofNat n).toNat = n := by
    rw [UInt8.toNat_ofNat', Nat.mod_eq_of_lt h]
  have hval : c.val.toNat = c.toNat := rfl
  unfold String.utf8EncodeChar at hx ⊢
  simp only at hx ⊢
  split at hx
  · next h =>
    rw [if_pos h]
    obtain rfl := List.mem_singleton.mp hx
    exact ⟨rfl, by rw [hofNat _ (by omega), hval]⟩
  · exfalso
    split at hx
    · simp only [List.mem_cons, List.not_mem_nil, or_false] at hx
      rcases hx with rfl | rfl <;> rw [hofNat _ (by omega)] at hlt <;> omega
    · split at hx
      · simp only [List.mem_cons, List.not_mem_nil, or_false] at hx
        rcases hx with rfl | rfl | rfl <;> rw [hofNat _ (by omega)] at hlt <;> omega
      · simp only [List.mem_cons, List.not_mem_nil, or_false] at hx
        rcases hx with rfl | rfl | rfl | rfl <;> rw [hofNat _ (by omega)] at hlt <;> omega

/-- An ASCII byte of a text is one of its characters. -/
theorem mem_toBytes_of_ascii {s : String} {x : UInt8} (hlt : x.toNat < 128) (hx : x ∈ toBytes s) :
    ∃ c ∈ s.toList, c.toNat = x.toNat := by
  obtain ⟨c, hc, hmem⟩ := List.mem_flatMap.mp hx
  exact ⟨c, hc, (encode_of_ascii hmem hlt).2⟩

/-- A decoded character stands in front of the bytes. -/
theorem eq_encode_append_of_decodeChar {b : Bytes} {c : Char} (h : decodeChar b = some c) :
    b = String.utf8EncodeChar c ++ b.drop c.utf8Size := by
  have henc := String.toByteArray_utf8EncodeChar_of_utf8DecodeChar?_eq_some h
  have hlist := congrArg (fun a : ByteArray => a.data.toList) henc
  have hle := Char.utf8Size_le_four c
  simp only [List.data_toByteArray, ByteArray.data_extract, Array.toList_extract,
    List.extract_eq_take_drop, List.drop_zero, List.take_take] at hlist
  rw [Nat.sub_zero, Nat.min_eq_left hle] at hlist
  rw [hlist, List.take_append_drop]

/-- What the strict decoder reads are the bytes themselves. -/
theorem flatMap_strictChars : ∀ {fuel : ℕ} {b : Bytes} {cs : List Char},
    strictChars fuel b = some cs → cs.flatMap String.utf8EncodeChar = b
  | _, [], cs, h => by
    rw [strictChars] at h
    rw [← Option.some.inj h]
    rfl
  | 0, x :: b, cs, h => by cases h
  | fuel + 1, x :: b, cs, h => by
    rw [strictChars] at h
    · cases hc : decodeChar (x :: b) with
      | none => simp [hc] at h
      | some c =>
        simp only [hc, Option.map_eq_some_iff] at h
        obtain ⟨cs, hcs, rfl⟩ := h
        rw [List.flatMap_cons, flatMap_strictChars hcs]
        exact (eq_encode_append_of_decodeChar hc).symm
    · simp

/-- What is decoded without an error encodes to what it was decoded from. -/
theorem toBytes_of_fromUtf8 {b : Bytes} {s : String} (h : fromUtf8 b = some s) : toBytes s = b := by
  obtain ⟨cs, hcs, rfl⟩ := Option.map_eq_some_iff.mp h
  rw [toBytes, String.toList_ofList, flatMap_strictChars hcs]

/-! ## Line ends -/

/-- A line end inside a text. -/
def HasCrlf (b : Bytes) : Prop := [0x0D, 0x0A] <:+: b

/-- A line break stands in front or further on. -/
theorem hasCrlf_cons {x : UInt8} {b : Bytes} :
    HasCrlf (x :: b) ↔ (x = 0x0D ∧ ∃ r, b = 0x0A :: r) ∨ HasCrlf b := by
  rw [HasCrlf, List.infix_cons_iff]
  refine or_congr ⟨?_, ?_⟩ Iff.rfl
  · rintro ⟨r, hr⟩
    obtain ⟨rfl, hb⟩ := List.cons.inj hr
    exact ⟨rfl, r, hb.symm⟩
  · rintro ⟨rfl, r, rfl⟩
    exact ⟨r, rfl⟩

theorem toNat_inj {c d : Char} (h : c.toNat = d.toNat) : c = d :=
  Char.ext (UInt32.toNat_inj.mp h)

/-- A line end in the bytes of a text is one in its characters. -/
theorem hasCrlf_flatMap_iff (cs : List Char) :
    HasCrlf (cs.flatMap String.utf8EncodeChar) ↔ ['\r', '\n'] <:+: cs := by
  refine Text.pair_infix_flatMap_iff (by decide) (by decide) (fun c hc => ?_) (fun c hc => ?_)
    (fun c hc => ?_) cs
  · exact toNat_inj (encode_of_ascii hc (by decide)).2
  · exact toNat_inj (encode_of_ascii hc (by decide)).2
  · exact encode_append_ne_nil c [] (by rw [hc]; rfl)

/-- A text has a line break in its bytes if and only if in its characters. -/
theorem hasCrlf_toBytes_iff (s : String) : HasCrlf (toBytes s) ↔ ['\r', '\n'] <:+: s.toList :=
  hasCrlf_flatMap_iff s.toList

theorem head_lossyChars {fuel : ℕ} {b : Bytes} {c : Char} {cs : List Char}
    (h : lossyChars fuel b = c :: cs) : (decodeChar b = some c ∨ c = '\uFFFD') := by
  cases fuel with
  | zero => simp [lossyChars] at h
  | succ fuel =>
    cases b with
    | nil => simp [lossyChars] at h
    | cons x b =>
      rw [lossyChars] at h
      · split at h
        · next d hd =>
          obtain ⟨rfl, -⟩ := List.cons.inj h
          exact .inl hd
        · exact .inr (List.cons.inj h).1.symm
      · simp

/-- Decoding makes no line ends. -/
theorem hasCrlf_of_lossyChars : ∀ {fuel : ℕ} {b : Bytes},
    ['\r', '\n'] <:+: lossyChars fuel b → HasCrlf b
  | 0, b, h => by simp [lossyChars] at h
  | fuel + 1, [], h => by simp [lossyChars] at h
  | fuel + 1, x :: b, h => by
    rw [lossyChars] at h
    · split at h
      · next c hc =>
        have hb := eq_encode_append_of_decodeChar hc
        rcases List.infix_cons_iff.mp h with ⟨r, hr⟩ | h
        · obtain ⟨rfl, hr⟩ := List.cons.inj hr
          rcases head_lossyChars hr.symm with hlf | hlf
          · have hrest := eq_encode_append_of_decodeChar hlf
            rw [hb, hrest]
            exact ⟨[], _, rfl⟩
          · exact absurd hlf (by decide)
        · exact (hasCrlf_of_lossyChars h).trans (List.drop_suffix ..).isInfix
      · rcases List.infix_cons_iff.mp h with ⟨r, hr⟩ | h
        · exact absurd (List.cons.inj hr).1 (by decide)
        · exact (hasCrlf_of_lossyChars h).trans (List.drop_suffix ..).isInfix
    · simp

/-- Decoding makes no line break. -/
theorem hasCrlf_of_lossy {b : Bytes} (h : HasCrlf (toBytes (lossy b))) : HasCrlf b := by
  rw [hasCrlf_toBytes_iff, lossy, String.toList_ofList] at h
  exact hasCrlf_of_lossyChars h

end Utf8
