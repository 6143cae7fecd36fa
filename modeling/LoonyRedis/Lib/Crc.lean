import Mathlib.Algebra.Polynomial.FieldDivision
import Mathlib.Algebra.Field.ZMod
import Mathlib.Data.List.GetD
import Mathlib.Tactic.Ring
import Mathlib.Tactic.LinearCombination

/-!
# Cyclic redundancy checks over GF(2)

A string of bits is the polynomial over `ZMod 2` whose highest coefficient is the first bit
(`ofBits`), and a word that of its bits, the most significant one first (`ofWord`). A check
of width `w` is given by the word of the coefficients of its generator below `X ^ w`. Its
register is shifted left by one bit, and the generator is subtracted if the bit that falls
out is set : the register is multiplied by `X` modulo the generator (`dvd_ofWord_shift`). A
chunk of the message is added to the top of the register before as many shifts as it has
bits. Read chunk by chunk, from a register of zeros, a message leaves the remainder of its
polynomial times `X ^ w` (`ofWord_check`).
-/

open Polynomial

namespace LoonyRedis.Crc

/-! ## Bits as polynomials -/

/-- A bit as a coefficient. -/
def bit (b : Bool) : ZMod 2 := if b then 1 else 0

theorem bit_xor (a b : Bool) : bit (a ^^ b) = bit a + bit b := by
  revert a b
  decide

/-- The polynomial of a string of bits, the first of them the highest coefficient. -/
noncomputable def ofBits (bits : List Bool) : (ZMod 2)[X] :=
  bits.foldl (fun p b => X * p + C (bit b)) 0

/-- The bits of a word, the most significant one first. -/
def bitsOf {w : ℕ} (x : BitVec w) : List Bool := (List.range w).map x.getMsbD

/-- The polynomial of a word. -/
noncomputable def ofWord {w : ℕ} (x : BitVec w) : (ZMod 2)[X] := ofBits (bitsOf x)

@[simp] theorem ofBits_nil : ofBits [] = 0 := rfl

theorem ofBits_concat (bits : List Bool) (b : Bool) :
    ofBits (bits ++ [b]) = X * ofBits bits + C (bit b) := by
  simp [ofBits]

theorem ofBits_append (bits more : List Bool) :
    ofBits (bits ++ more) = X ^ more.length * ofBits bits + ofBits more := by
  induction more using List.reverseRecOn with
  | nil => simp
  | append_singleton more b ih =>
    rw [← List.append_assoc, ofBits_concat, ofBits_concat, ih, List.length_append,
      List.length_singleton]
    ring

theorem coeff_ofBits (bits : List Bool) (i : ℕ) :
    (ofBits bits).coeff i = bit (bits.reverse.getD i false) := by
  induction bits using List.reverseRecOn generalizing i with
  | nil => simp [bit]
  | append_singleton bits b ih =>
    rw [ofBits_concat]
    cases i with
    | zero => simp
    | succ i => simp [coeff_C_succ, ih]

@[simp] theorem length_bitsOf {w : ℕ} (x : BitVec w) : (bitsOf x).length = w := by
  simp [bitsOf]

theorem coeff_ofWord {w : ℕ} (x : BitVec w) (i : ℕ) :
    (ofWord x).coeff i = bit (x.getLsbD i) := by
  rw [ofWord, coeff_ofBits]
  congr 1
  rcases Nat.lt_or_ge i w with h | h
  · have hlt : i < (bitsOf x).reverse.length := by simpa using h
    have hm : w - 1 - i < w := by omega
    rw [List.getD_eq_getElem _ _ hlt, List.getElem_reverse]
    simp [bitsOf, BitVec.getMsbD_eq_getLsbD, hm, show w - 1 - (w - 1 - i) = i by omega]
  · rw [List.getD_eq_default _ _ (by simpa using h), BitVec.getLsbD_of_ge x i h]

theorem degree_ofWord_lt {w : ℕ} (x : BitVec w) : (ofWord x).degree < w := by
  rw [degree_lt_iff_coeff_zero]
  intro i hi
  rw [coeff_ofWord, BitVec.getLsbD_of_ge x i hi]
  rfl

theorem ofWord_xor {w : ℕ} (x y : BitVec w) : ofWord (x ^^^ y) = ofWord x + ofWord y := by
  ext i
  rw [coeff_add, coeff_ofWord, coeff_ofWord, coeff_ofWord, BitVec.getLsbD_xor, bit_xor]

@[simp] theorem ofWord_zero (w : ℕ) : ofWord 0#w = 0 := by
  ext i
  simp [coeff_ofWord, bit]

/-- A word moved to the top of a wider one. -/
theorem ofWord_shiftLeft_setWidth {k w : ℕ} (hk : k ≤ w) (b : BitVec k) :
    ofWord (b.setWidth w <<< (w - k)) = X ^ (w - k) * ofWord b := by
  ext i
  rw [coeff_ofWord, coeff_X_pow_mul', coeff_ofWord, BitVec.getLsbD_shiftLeft,
    BitVec.getLsbD_setWidth]
  split
  · next h =>
    rcases Nat.lt_or_ge i w with hi | hi
    · congr 1
      simp only [hi, Nat.not_lt.mpr h, show i - (w - k) < w by omega, decide_true, decide_false,
        Bool.not_false, Bool.true_and]
    · rw [BitVec.getLsbD_of_ge b (i - (w - k)) (by omega)]
      simp
  · next h => simp [Nat.not_le.mp h, bit]

/-! ## The register -/

/-- The generator `X ^ w + …` of a check, from the word of its lower coefficients. -/
noncomputable def generator {w : ℕ} (tail : BitVec w) : (ZMod 2)[X] := X ^ w + ofWord tail

theorem monic_generator {w : ℕ} (tail : BitVec w) : (generator tail).Monic :=
  monic_X_pow_add (degree_ofWord_lt tail)

theorem degree_generator {w : ℕ} (tail : BitVec w) : (generator tail).degree = w := by
  rw [generator, degree_add_eq_left_of_degree_lt, degree_X_pow]
  rw [degree_X_pow]
  exact degree_ofWord_lt tail

/-- A shift of the register. -/
def shift {w : ℕ} (tail x : BitVec w) : BitVec w :=
  if x.msb then (x <<< 1) ^^^ tail else x <<< 1

/-- A chunk of the message is added to the top of the register, and shifted through. -/
def chunk {k w : ℕ} (tail : BitVec w) (x : BitVec w) (b : BitVec k) : BitVec w :=
  (shift tail)^[k] (x ^^^ (b.setWidth w <<< (w - k)))

/-- The check of a message, read in chunks. -/
def check {k w : ℕ} (tail : BitVec w) (message : List (BitVec k)) : BitVec w :=
  message.foldl (chunk tail) 0#w

/-- The register shifted left lost the coefficient of `X ^ w`. -/
theorem X_mul_ofWord {w : ℕ} (x : BitVec w) :
    X * ofWord x = ofWord (x <<< 1) + C (bit x.msb) * X ^ w := by
  ext i
  rw [coeff_add, coeff_C_mul_X_pow, coeff_ofWord, BitVec.getLsbD_shiftLeft,
    BitVec.msb_eq_getLsbD_last]
  cases i with
  | zero =>
    rcases Nat.eq_zero_or_pos w with rfl | hw
    · simp [bit]
    · simp [bit, hw.ne]
  | succ i =>
    rw [coeff_X_mul, coeff_ofWord]
    rcases Nat.lt_trichotomy (i + 1) w with h | h | h
    · simp [h, h.ne]
    · subst h
      simp [bit]
    · rw [BitVec.getLsbD_of_ge x i (by omega)]
      simp [bit, h.ne', Nat.not_lt.mpr h.le]

/-- A shift multiplies by `X` modulo the generator. -/
theorem dvd_ofWord_shift {w : ℕ} (tail x : BitVec w) :
    generator tail ∣ ofWord (shift tail x) - X * ofWord x := by
  rw [X_mul_ofWord, shift]
  split
  · next h =>
    -- the two differ by the generator, which is its own negation
    have hchar : (2 : (ZMod 2)[X]) = 0 := CharTwo.two_eq_zero
    refine ⟨1, ?_⟩
    rw [ofWord_xor, h, generator]
    simp only [bit, if_true, C_1]
    linear_combination -X ^ w * hchar
  · next h =>
    rw [Bool.not_eq_true] at h
    simp [h, bit]

theorem dvd_ofWord_shift_iterate {w : ℕ} (tail x : BitVec w) (n : ℕ) :
    generator tail ∣ ofWord ((shift tail)^[n] x) - X ^ n * ofWord x := by
  induction n with
  | zero => simp
  | succ n ih =>
    have hstep := dvd_ofWord_shift tail ((shift tail)^[n] x)
    rw [Function.iterate_succ_apply']
    have hsum := dvd_add hstep (ih.mul_left X)
    convert hsum using 1
    ring

/-- A chunk multiplies by a power of `X`, and adds its own polynomial times `X ^ w`. -/
theorem dvd_ofWord_chunk {k w : ℕ} (hk : k ≤ w) (tail x : BitVec w) (b : BitVec k) :
    generator tail ∣
      ofWord (chunk tail x b) - (X ^ k * ofWord x + ofWord b * X ^ w) := by
  have h := dvd_ofWord_shift_iterate tail (x ^^^ (b.setWidth w <<< (w - k))) k
  rw [ofWord_xor, ofWord_shiftLeft_setWidth hk] at h
  have hw : (X : (ZMod 2)[X]) ^ w = X ^ k * X ^ (w - k) := by
    rw [← pow_add, Nat.add_sub_of_le hk]
  rw [chunk, hw]
  convert h using 1
  ring

/-- The bits of a message in chunks. -/
def messageBits {k : ℕ} (message : List (BitVec k)) : List Bool := message.flatMap bitsOf

/-- Reading on from any register : what was there is multiplied by a power of `X`. -/
theorem dvd_ofWord_foldl {k w : ℕ} (hk : k ≤ w) (tail : BitVec w) (message : List (BitVec k))
    (x : BitVec w) :
    generator tail ∣ ofWord (message.foldl (chunk tail) x) -
      (X ^ (messageBits message).length * ofWord x + ofBits (messageBits message) * X ^ w) := by
  induction message generalizing x with
  | nil => simp [messageBits]
  | cons b message ih =>
    have hb := (dvd_ofWord_chunk hk tail x b).mul_left (X ^ (messageBits message).length)
    have hsum := dvd_add (ih (chunk tail x b)) hb
    have hbits : messageBits (b :: message) = bitsOf b ++ messageBits message := rfl
    rw [List.foldl_cons, hbits, ofBits_append, ← ofWord, List.length_append, length_bitsOf,
      pow_add]
    convert hsum using 1
    ring

/-- A polynomial of smaller degree than the generator is the remainder of what it is
congruent to. -/
theorem eq_mod_of_dvd_sub {g p q : (ZMod 2)[X]} (hg : g.Monic) (hp : p.degree < g.degree)
    (h : g ∣ p - q) : p = q % g := by
  rw [← modByMonic_eq_mod q hg, ← (modByMonic_eq_self_iff hg).mpr hp]
  exact modByMonic_eq_of_dvd_sub hg h

/-- **The check of a message is the remainder of its polynomial times `X ^ w`.** -/
theorem ofWord_check {k w : ℕ} (hk : k ≤ w) (tail : BitVec w) (message : List (BitVec k)) :
    ofWord (check tail message) =
      (ofBits (messageBits message) * X ^ w) % generator tail := by
  refine eq_mod_of_dvd_sub (monic_generator tail) ?_ ?_
  · rw [degree_generator]
    exact degree_ofWord_lt _
  · have h := dvd_ofWord_foldl hk tail message 0#w
    rwa [ofWord_zero, mul_zero, zero_add] at h

end LoonyRedis.Crc
