import LoonyRedis.Lib.Text
import LoonyRedis.Lib.Utf8

/-!
# Words of letters in any case

The bytes below 128 are characters of their own, so a decoded text of such bytes has the same
characters (`lossy_eq`), and its upper case is that of the bytes (`toUppercase_lossy`). A byte
string that spells a word of letters up to the case (`Spells`) has the word as its upper case, is
the word itself only if its bytes are (`Spells.lossy_eq_iff`), and is never read as an integer.
-/

namespace Ascii

open Utf8 Text

/-! ## Bytes and characters -/

/-- The character of a byte. -/
def char (x : UInt8) : Char := Char.ofNat x.toNat

/-- All bytes are below 128. -/
def IsAscii (b : Bytes) : Prop := ∀ x ∈ b, x.toNat < 128

/-- A property of the bytes below 128, checked value by value. -/
theorem forall_ascii {p : UInt8 → Prop} (h : ∀ n < 128, p (UInt8.ofNat n)) {x : UInt8}
    (hx : x.toNat < 128) : p x := by
  have hp := h x.toNat hx
  rwa [UInt8.ofNat_toNat] at hp

/-- An ASCII character is one byte. -/
theorem encode_char {x : UInt8} (hx : x.toNat < 128) : String.utf8EncodeChar (char x) = [x] :=
  forall_ascii (p := fun x => String.utf8EncodeChar (char x) = [x]) (by decide) hx

/-- Text made of ASCII bytes has these bytes. -/
theorem toBytes_ofList {b : Bytes} (hb : IsAscii b) : toBytes (String.ofList (b.map char)) = b := by
  rw [toBytes, String.toList_ofList, List.flatMap_map]
  induction b with
  | nil => rfl
  | cons x b ih =>
    rw [List.flatMap_cons, encode_char (hb x List.mem_cons_self),
      ih fun y hy => hb y (List.mem_cons_of_mem _ hy), List.singleton_append]

/-- ASCII bytes are decoded byte by byte. -/
theorem lossy_eq {b : Bytes} (hb : IsAscii b) : lossy b = String.ofList (b.map char) := by
  conv_lhs => rw [← toBytes_ofList hb]
  rw [lossy_toBytes]

/-- The characters of ASCII bytes are the bytes. -/
theorem toList_lossy {b : Bytes} (hb : IsAscii b) : (lossy b).toList = b.map char := by
  rw [lossy_eq hb, String.toList_ofList]

/-! ## Upper case -/

/-- Changing the case keeps ASCII bytes apart from others. -/
theorem toAsciiUppercase_lt {x : UInt8} : (toAsciiUppercase x).toNat < 128 ↔ x.toNat < 128 := by
  unfold toAsciiUppercase
  split
  · next h =>
    simp only [Bool.and_eq_true, decide_eq_true_eq, UInt8.le_iff_toNat_le] at h
    have hsub : (x - 32).toNat = x.toNat - 32 := UInt8.toNat_sub_of_le x 32 (by
      rw [UInt8.le_iff_toNat_le]
      exact le_trans (by decide) h.1)
    have hhi : x.toNat ≤ 122 := h.2
    omega
  · exact Iff.rfl

/-- Bytes are ASCII in both cases or in none. -/
theorem isAscii_upper {b : Bytes} : IsAscii (b.map toAsciiUppercase) ↔ IsAscii b := by
  simp [IsAscii, toAsciiUppercase_lt]

/-- The case of an ASCII character is that of its byte. -/
theorem upper_char {x : UInt8} (hx : x.toNat < 128) :
    upperSpecial.lookup (char x) = none ∧ (char x).toUpper = char (toAsciiUppercase x) :=
  forall_ascii (p := fun x => upperSpecial.lookup (char x) = none ∧
    (char x).toUpper = char (toAsciiUppercase x)) (by decide) hx

/-- The upper case of the characters is that of the bytes. -/
theorem toUppercase_lossy {b : Bytes} (hb : IsAscii b) :
    toUppercase (lossy b) = lossy (b.map toAsciiUppercase) := by
  rw [lossy_eq (isAscii_upper.mpr hb), toUppercase, toList_lossy hb, List.flatMap_map]
  congr 1
  induction b with
  | nil => rfl
  | cons x b ih =>
    obtain ⟨hspecial, hupper⟩ := upper_char (hb x List.mem_cons_self)
    rw [List.flatMap_cons, ih fun y hy => hb y (List.mem_cons_of_mem _ hy), hspecial, hupper]
    rfl

/-! ## Words -/

/-- All bytes are letters in upper case. -/
def IsWord (word : String) : Prop := ∀ x ∈ toBytes word, 0x41 ≤ x ∧ x ≤ 0x5A

/-- Each byte of the word is looked at. -/
instance (word : String) : Decidable (IsWord word) := List.decidableBAll _ (toBytes word)

/-- The word, up to the case of its letters. -/
def Spells (b : Bytes) (word : String) : Prop := b.map toAsciiUppercase = toBytes word

/-- The bytes in upper case are compared. -/
instance (b : Bytes) (word : String) : Decidable (Spells b word) :=
  inferInstanceAs (Decidable (_ = _))

/-- A word is ASCII. -/
theorem IsWord.isAscii {word : String} (h : IsWord word) : IsAscii (toBytes word) := fun x hx => by
  have hhi := (h x hx).2
  rw [UInt8.le_iff_toNat_le] at hhi
  exact lt_of_le_of_lt hhi (by decide)

section Spelling

variable {b : Bytes} {word : String}

/-- A spelling of a word is ASCII. -/
theorem Spells.isAscii (h : Spells b word) (hw : IsWord word) : IsAscii b :=
  isAscii_upper.mp (by rw [h]; exact hw.isAscii)

/-- A spelling of a word is the word in upper case. -/
theorem Spells.toUppercase (h : Spells b word) (hw : IsWord word) :
    Text.toUppercase (lossy b) = word := by
  rw [toUppercase_lossy (h.isAscii hw), h, lossy_toBytes]

/-- A spelling is the word itself if and only if its bytes are. -/
theorem Spells.lossy_eq_iff (h : Spells b word) (hw : IsWord word) :
    lossy b = word ↔ b = toBytes word := by
  constructor
  · intro heq
    rw [← heq, lossy_eq (h.isAscii hw), toBytes_ofList (h.isAscii hw)]
  · rintro rfl
    exact lossy_toBytes word

/-- A byte with a letter as its upper case is a letter. -/
theorem isAlpha_char {x : UInt8} (h : 0x41 ≤ toAsciiUppercase x ∧ toAsciiUppercase x ≤ 0x5A) :
    (char x).isAlpha = true := by
  have hx : x.toNat < 128 := by
    rw [← toAsciiUppercase_lt]
    exact lt_of_le_of_lt (UInt8.le_iff_toNat_le.mp h.2) (by decide)
  exact forall_ascii (p := fun x => 0x41 ≤ toAsciiUppercase x ∧ toAsciiUppercase x ≤ 0x5A →
    (char x).isAlpha = true) (by decide) hx h

/-- A spelling of a word has letters only. -/
theorem Spells.isAlpha (h : Spells b word) (hw : IsWord word) {c : Char}
    (hc : c ∈ (lossy b).toList) : c.isAlpha = true := by
  rw [toList_lossy (h.isAscii hw)] at hc
  obtain ⟨x, hx, rfl⟩ := List.mem_map.mp hc
  have hmem : toAsciiUppercase x ∈ toBytes word := by
    rw [← h]
    exact List.mem_map_of_mem hx
  exact isAlpha_char (hw _ hmem)

end Spelling

/-! ## Letters are no numbers -/

/-- The letters are two ranges of characters. -/
theorem toNat_of_isAlpha {c : Char} (h : c.isAlpha = true) :
    65 ≤ c.toNat ∧ c.toNat ≤ 90 ∨ 97 ≤ c.toNat ∧ c.toNat ≤ 122 := by
  rcases (Bool.or_eq_true_iff.mp h : c.isUpper = true ∨ c.isLower = true) with h | h
  · have hrange : c.val ≥ 'A'.val ∧ c.val ≤ 'Z'.val := of_decide_eq_true h
    exact .inl ⟨hrange.1, hrange.2⟩
  · obtain ⟨hlo, hhi⟩ := Bool.and_eq_true_iff.mp h
    have hlo' : c.val ≥ 'a'.val := of_decide_eq_true hlo
    have hhi' : c.val ≤ 'z'.val := of_decide_eq_true hhi
    exact .inr ⟨hlo', hhi'⟩

/-- A letter is no digit. -/
theorem isDigit_of_isAlpha {c : Char} (h : c.isAlpha = true) : c.isDigit = false := by
  rw [Bool.eq_false_iff]
  intro hdigit
  simp only [Char.isDigit, Bool.and_eq_true, decide_eq_true_eq, ge_iff_le] at hdigit
  have hhi : c.toNat ≤ 57 := hdigit.2
  have := toNat_of_isAlpha h
  omega

/-- A letter is no white space. -/
theorem isWhitespace_of_isAlpha {c : Char} (h : c.isAlpha = true) : isWhitespace c = false := by
  have := toNat_of_isAlpha h
  simp only [isWhitespace, Bool.or_eq_false_iff, Bool.and_eq_false_iff, decide_eq_false_iff_not]
  omega

theorem ne_of_isAlpha {c d : Char} (h : c.isAlpha = true) (hd : d.isAlpha = false) : c ≠ d := by
  rintro rfl
  rw [h] at hd
  cases hd

/-- A text with a letter is no integer. -/
theorem parseI64_of_isAlpha {cs : List Char} {c : Char} (hc : c ∈ cs) (h : c.isAlpha = true) :
    parseI64 (trim cs) = none := by
  cases hparse : parseI64 (trim cs) with
  | none => rfl
  | some n =>
    rcases isDigit_or_sign hparse (mem_trim hc (isWhitespace_of_isAlpha h)) with hdigit | hsign
    · rw [isDigit_of_isAlpha h] at hdigit
      cases hdigit
    · exact absurd hsign (not_or.mpr ⟨ne_of_isAlpha h (by decide), ne_of_isAlpha h (by decide)⟩)

/-- A spelling of a word is no number. -/
theorem Spells.parseI64 {b : Bytes} {word : String} (h : Spells b word) (hw : IsWord word)
    (hne : word ≠ "") : Text.parseI64 (trim (lossy b).toList) = none := by
  obtain ⟨c, hc⟩ : ∃ c, c ∈ (lossy b).toList := by
    refine List.exists_mem_of_ne_nil _ fun hnil => hne ?_
    rw [toList_lossy (h.isAscii hw), List.map_eq_nil_iff] at hnil
    rw [← h.toUppercase hw, hnil]
    decide
  exact parseI64_of_isAlpha hc (h.isAlpha hw hc)

end Ascii
