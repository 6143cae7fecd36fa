import LoonyRedis.Slots
import LoonyRedis.Lib.Crc

/-!
# The slot of a key

The loop of `crc16` on 16-bit words is the check of width 16 over GF(2) that reads its
message in bytes (`crc16_toBitVec`), with the generator `X ^ 16 + X ^ 12 + X ^ 5 + 1`.
Thus `crc16` of a text is the remainder of the polynomial of its bits times `X ^ 16`, for
texts of every length (`ofWord_crc16`).

The tag of a key is the text between its first opening brace and the first closing brace
behind that one (`IsTag`). The slot is computed from the tag, if there is one that is not
empty, and from the whole key otherwise. What stands before and after the tag has no
influence, and keys with one tag share a slot.
-/

open Polynomial

namespace LoonyRedis

/-! ## The checksum -/

/-- The bits of a text, the most significant bit of every byte first. -/
def bytesBits (data : Bytes) : List Bool := data.flatMap fun b => Crc.bitsOf b.toBitVec

/-- The register after a bit, on bit vectors. -/
theorem crc16Bit_toBitVec (crc : UInt16) :
    (crc16Bit crc).toBitVec = Crc.shift 0x1021#16 crc.toBitVec := by
  have hmask : (crc &&& 0x8000).toBitVec =
      if crc.toBitVec.msb then BitVec.twoPow 16 15 else 0#16 := by
    rw [UInt16.toBitVec_and, BitVec.msb_eq_getLsbD_last]
    exact BitVec.and_twoPow crc.toBitVec 15
  have hiff : crc &&& 0x8000 ≠ 0 ↔ crc.toBitVec.msb = true := by
    rw [ne_eq, ← UInt16.toBitVec_inj, hmask]
    split
    · next h => simp [h, BitVec.twoPow]
    · next h => simp [h]
  rw [crc16Bit, Crc.shift]
  simp only [hiff]
  split <;> rfl

theorem crc16Bit_iterate_toBitVec (crc : UInt16) (n : ℕ) :
    (crc16Bit^[n] crc).toBitVec = (Crc.shift 0x1021#16)^[n] crc.toBitVec := by
  induction n with
  | zero => rfl
  | succ n ih =>
    rw [Function.iterate_succ_apply', Function.iterate_succ_apply', crc16Bit_toBitVec, ih]

theorem crc16Byte_toBitVec (crc : UInt16) (byte : UInt8) :
    (crc16Byte crc byte).toBitVec = Crc.chunk 0x1021#16 crc.toBitVec byte.toBitVec := by
  rw [crc16Byte, crc16Bit_iterate_toBitVec, Crc.chunk]
  rfl

theorem crc16_toBitVec (data : Bytes) :
    (crc16 data).toBitVec = Crc.check 0x1021#16 (data.map UInt8.toBitVec) := by
  have hfold (crc : UInt16) : (data.foldl crc16Byte crc).toBitVec =
      (data.map UInt8.toBitVec).foldl (Crc.chunk 0x1021#16) crc.toBitVec := by
    induction data generalizing crc with
    | nil => rfl
    | cons byte data ih =>
      rw [List.foldl_cons, ih, crc16Byte_toBitVec, List.map_cons, List.foldl_cons]
  exact hfold 0

/-- The generator is that of the CCITT. -/
theorem generator_crc16 :
    Crc.generator 0x1021#16 = X ^ 16 + X ^ 12 + X ^ 5 + (1 : (ZMod 2)[X]) := by
  have htail : Crc.ofWord 0x1021#16 = X ^ 12 + X ^ 5 + (1 : (ZMod 2)[X]) := by
    have hbits : Crc.bitsOf 0x1021#16 = [false, false, false, true, false, false, false, false,
        false, false, true, false, false, false, false, true] := by decide
    rw [Crc.ofWord, hbits]
    simp only [Crc.ofBits, List.foldl_cons, List.foldl_nil, Crc.bit, if_true, C_1,
      Bool.false_eq_true, if_false, C_0]
    ring
  rw [Crc.generator, htail]
  ring

/-- `crc16` is the remainder of the text times `X ^ 16`. -/
theorem ofWord_crc16 (data : Bytes) :
    Crc.ofWord (crc16 data).toBitVec =
      (Crc.ofBits (bytesBits data) * X ^ 16) % (X ^ 16 + X ^ 12 + X ^ 5 + 1) := by
  rw [crc16_toBitVec, Crc.ofWord_check (by decide), generator_crc16, Crc.messageBits,
    List.flatMap_map]
  rfl

/-! ## The tag -/

/-- The text between the first opening brace of the key and the first closing brace
behind it. -/
def IsTag (key t : Bytes) : Prop :=
  ∃ p s, key = p ++ 0x7B :: (t ++ 0x7D :: s) ∧ 0x7B ∉ p ∧ 0x7D ∉ t

theorem findIdx?_first {c : UInt8} {before after : Bytes} (h : c ∉ before) :
    (before ++ c :: after).findIdx? (· = c) = some before.length := by
  induction before with
  | nil => simp [List.findIdx?_cons]
  | cons b before ih =>
    rw [List.mem_cons, not_or] at h
    obtain ⟨hb, hrest⟩ := h
    rw [List.cons_append, List.findIdx?_cons, if_neg (by simpa using Ne.symm hb), ih hrest]
    rfl

/-- Where a byte is found, it is for the first time. -/
theorem eq_append_of_findIdx? {c : UInt8} {l : Bytes} {i : ℕ}
    (h : l.findIdx? (· = c) = some i) :
    l = l.take i ++ c :: l.drop (i + 1) ∧ c ∉ l.take i ∧ i < l.length := by
  obtain ⟨hi, hc, hbefore⟩ := List.findIdx?_eq_some_iff_getElem.mp h
  have hget : l[i] = c := by simpa using hc
  refine ⟨?_, ?_, hi⟩
  · rw [← hget, List.cons_getElem_drop_succ, List.take_append_drop]
  · intro hmem
    obtain ⟨j, hj, hjc⟩ := List.mem_iff_getElem.mp hmem
    have hji : j < i := by
      rw [List.length_take] at hj
      omega
    rw [List.getElem_take] at hjc
    exact absurd (by simpa using hjc) (hbefore j hji)

/-- A tag that is not empty is what is hashed. -/
theorem hashTag_of_isTag {key t : Bytes} (h : IsTag key t) (ht : t ≠ []) : hashTag key = t := by
  obtain ⟨p, s, rfl, hp, hclose⟩ := h
  have hdrop : (p ++ 0x7B :: (t ++ 0x7D :: s)).drop (p.length + 1) = t ++ 0x7D :: s := by
    simp [List.drop_append]
  have hlen : t.length ≠ 0 := by simpa using ht
  simp only [hashTag, findIdx?_first hp, hdrop, findIdx?_first hclose, if_neg hlen]
  exact List.take_left

/-- Without one it is the whole key. -/
theorem hashTag_of_no_tag {key : Bytes} (h : ∀ t, IsTag key t → t = []) : hashTag key = key := by
  rw [hashTag]
  split
  · rfl
  · next op hop =>
    obtain ⟨hkey, hp, _⟩ := eq_append_of_findIdx? hop
    split
    · rfl
    · next close hclose =>
      obtain ⟨hrest, ht, hlt⟩ := eq_append_of_findIdx? hclose
      split
      · rfl
      · next hpos =>
        -- a closing brace further on leaves a tag between the two
        have htag : IsTag key ((key.drop (op + 1)).take close) :=
          ⟨key.take op, _, by rw [← hrest]; exact hkey, hp, ht⟩
        have hnil := congrArg List.length (h _ htag)
        rw [List.length_take, List.length_nil] at hnil
        omega

/-- **The rule of the cluster** : the checksum is the remainder of a polynomial division,
the slot is that of the tag or of the whole key, and keys with one tag share a slot. -/
theorem key_slots (data key : Bytes) :
    Crc.ofWord (crc16 data).toBitVec =
        (Crc.ofBits (bytesBits data) * X ^ 16) % (X ^ 16 + X ^ 12 + X ^ 5 + 1) ∧
      (∀ t, IsTag key t → t ≠ [] → slotForKey key = (crc16 t).toNat % 16384) ∧
      ((∀ t, IsTag key t → t = []) → slotForKey key = (crc16 key).toNat % 16384) ∧
      ∀ p s p' s' t : Bytes, 0x7B ∉ p → 0x7B ∉ p' → t ≠ [] → 0x7D ∉ t →
        slotForKey (p ++ [0x7B] ++ t ++ [0x7D] ++ s) =
          slotForKey (p' ++ [0x7B] ++ t ++ [0x7D] ++ s') := by
  refine ⟨ofWord_crc16 data, ?_, ?_, ?_⟩
  · intro t h ht
    rw [slotForKey, hashTag_of_isTag h ht, numSlots]
  · intro h
    rw [slotForKey, hashTag_of_no_tag h, numSlots]
  · intro p s p' s' t hp hp' ht hclose
    have htag : IsTag (p ++ [0x7B] ++ t ++ [0x7D] ++ s) t := ⟨p, s, by simp, hp, hclose⟩
    have htag' : IsTag (p' ++ [0x7B] ++ t ++ [0x7D] ++ s') t := ⟨p', s', by simp, hp', hclose⟩
    rw [slotForKey, slotForKey, hashTag_of_isTag htag ht, hashTag_of_isTag htag' ht]

/-- The keys of a user share a slot. -/
theorem key_slots_user :
    slotForKey (Utf8.toBytes "a{user1000}.following") =
        slotForKey (Utf8.toBytes "{user1000}.followers") ∧
      slotForKey (Utf8.toBytes "{}k") = (crc16 (Utf8.toBytes "{}k")).toNat % 16384 := by
  have hempty : ∀ t, IsTag (Utf8.toBytes "{}k") t → t = [] := by
    intro t ht
    by_contra hne
    have htag := hashTag_of_isTag ht hne
    obtain ⟨p, s, hkey, hp, _⟩ := ht
    have hself : hashTag (Utf8.toBytes "{}k") = Utf8.toBytes "{}k" := by decide
    have hlen := congrArg List.length hkey
    rw [← htag, hself] at hlen
    simp only [List.length_append, List.length_cons] at hlen
    omega
  refine ⟨?_, (key_slots [] (Utf8.toBytes "{}k")).2.2.1 hempty⟩
  have h := (key_slots [] []).2.2.2 (Utf8.toBytes "a") (Utf8.toBytes ".following") []
    (Utf8.toBytes ".followers") (Utf8.toBytes "user1000") (by decide) (by decide) (by decide)
    (by decide)
  exact h

end LoonyRedis
