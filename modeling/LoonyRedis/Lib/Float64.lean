import Mathlib.Data.List.TakeWhile
import Mathlib.Data.Nat.Log
import Mathlib.Tactic.Ring
import Mathlib.Tactic.NormNum

/-!
# Binary64 numbers, as bit patterns

A double is its 64 bits : a sign, and a magnitude pattern below `2 ^ 63` that orders the
non-negative doubles as natural numbers. Finite doubles are multiples of `2 ^ -1074`
(`units`), so sums and products are exact integers until they are rounded to the nearest
double, ties to even (`roundMag`).

Where an operation has no number as its result, the NaN is the one of x86-64 : the first operand
that is one, made quiet, or the negative default if no operand is (`quiet`, `indefinite`).

`parse` reads a decimal text and `display` writes the shortest digits that read back as
the same double, without an exponent. Reading what was written gives the double back for
everything but NaN (`parse_display`).
-/

/-- A double, as its bit pattern. -/
structure F64 where
  bits : UInt64
  deriving DecidableEq, Repr

namespace F64

/-- The sign bit. -/
def neg (x : F64) : Bool := 2 ^ 63 ≤ x.bits.toNat

/-- Exponent and fraction, as one number. -/
def mag (x : F64) : ℕ := x.bits.toNat % 2 ^ 63

/-- The double of a sign and a magnitude pattern. -/
def make (neg : Bool) (mag : ℕ) : F64 :=
  ⟨UInt64.ofNat ((if neg then 2 ^ 63 else 0) + mag)⟩

/-- The magnitude pattern of infinity. -/
def infMag : ℕ := 2047 * 2 ^ 52

/-- The positive zero. -/
def zero : F64 := make false 0

/-- The double 1. -/
def one : F64 := make false (1023 * 2 ^ 52)

/-- The positive infinity. -/
def infinity : F64 := make false infMag

/-- The negative infinity. -/
def negInfinity : F64 := make true infMag

/-- The NaN that a text is read as. -/
def nan : F64 := make false (infMag + 2 ^ 51)
/-- The NaN that an operation on numbers gives. -/
def indefinite : F64 := make true (infMag + 2 ^ 51)
/-- The gap between 1 and the next double. -/
def epsilon : F64 := make false (971 * 2 ^ 52)

/-- The patterns above infinity are no numbers. -/
def isNaN (x : F64) : Bool := infMag < x.mag

/-- Either infinity. -/
def isInf (x : F64) : Bool := x.mag = infMag

@[simp] theorem make_neg_mag (x : F64) : make x.neg x.mag = x := by
  have hlt : x.bits.toNat < 2 ^ 64 := UInt64.toNat_lt x.bits
  have h : (if x.neg then 2 ^ 63 else 0) + x.mag = x.bits.toNat := by
    by_cases hneg : 2 ^ 63 ≤ x.bits.toNat
    · simp only [neg, mag, hneg, decide_true, if_true]
      omega
    · simp only [neg, mag, hneg, decide_false, Bool.false_eq_true, if_false]
      omega
  rw [make, h, UInt64.ofNat_toNat]

/-! ## Values and rounding -/

/-- The finite doubles are multiples of `2 ^ -scale`. -/
def scale : ℕ := 1074

/-- The value of a finite magnitude pattern, in units of `2 ^ -scale`. -/
def units (m : ℕ) : ℕ :=
  if m / 2 ^ 52 = 0 then m else (2 ^ 52 + m % 2 ^ 52) * 2 ^ (m / 2 ^ 52 - 1)

/-- The signed value of a finite double. -/
def toUnits (x : F64) : ℤ := if x.neg then -(units x.mag : ℤ) else units x.mag

/-- `num / den` to the nearest integer, ties to even. -/
def rne (num den : ℕ) : ℕ :=
  let q := num / den
  let r := num % den
  if 2 * r < den then q else if den < 2 * r then q + 1 else q + q % 2

/-- The magnitude pattern nearest to `num / den` units. -/
def roundMag (num den : ℕ) : ℕ :=
  let k := Nat.log2 (num / den) - 52
  min (k * 2 ^ 52 + rne num (den * 2 ^ k)) infMag

theorem rne_mul {q den : ℕ} (hden : 0 < den) : rne (q * den) den = q := by
  simp [rne, Nat.mul_div_cancel q hden, hden]

theorem units_eq {e f : ℕ} (hf : f < 2 ^ 52) :
    units (2 ^ 52 * e + f) = (if e = 0 then f else 2 ^ 52 + f) * 2 ^ (e - 1) := by
  have hdiv : (2 ^ 52 * e + f) / 2 ^ 52 = e := by omega
  have hmod : (2 ^ 52 * e + f) % 2 ^ 52 = f := by omega
  rw [units, hdiv, hmod]
  split
  · next h => rw [h, mul_zero, zero_add, zero_tsub, pow_zero, mul_one]
  · rfl

theorem log2_units {e f : ℕ} (hf : f < 2 ^ 52) :
    Nat.log2 (units (2 ^ 52 * e + f)) - 52 = e - 1 := by
  rw [units_eq hf]
  rcases Nat.eq_zero_or_pos e with rfl | he
  · rw [if_pos rfl, zero_tsub, pow_zero, mul_one]
    rcases Nat.eq_zero_or_pos f with rfl | hpos
    · rfl
    · have := (Nat.log2_lt hpos.ne').mpr hf
      omega
  · have hlog : Nat.log2 ((2 ^ 52 + f) * 2 ^ (e - 1)) = 52 + (e - 1) := by
      rw [Nat.log2_eq_iff (by positivity)]
      constructor
      · rw [pow_add]
        exact Nat.mul_le_mul_right _ (by omega)
      · rw [add_right_comm, pow_add]
        exact Nat.mul_lt_mul_of_pos_right (by omega) (by positivity)
    rw [if_neg he.ne', hlog, Nat.add_sub_cancel_left]

/-- A double is the double nearest to its value. -/
theorem roundMag_units {m d : ℕ} (hm : m < infMag) (hd : 0 < d) :
    roundMag (units m * d) d = m := by
  obtain ⟨e, f, hf, rfl⟩ : ∃ e f, f < 2 ^ 52 ∧ m = 2 ^ 52 * e + f :=
    ⟨m / 2 ^ 52, m % 2 ^ 52, Nat.mod_lt _ (by norm_num), (Nat.div_add_mod m _).symm⟩
  have hrne : rne (units (2 ^ 52 * e + f) * d) (d * 2 ^ (e - 1)) =
      if e = 0 then f else 2 ^ 52 + f := by
    rw [units_eq hf, mul_assoc, mul_comm _ d, rne_mul (by positivity)]
  have hsum : (e - 1) * 2 ^ 52 + (if e = 0 then f else 2 ^ 52 + f) = 2 ^ 52 * e + f := by
    split <;> omega
  rw [roundMag, Nat.mul_div_cancel _ hd, log2_units hf]
  simp only [hrne, hsum]
  exact Nat.min_eq_left hm.le

/-! ## Comparison and arithmetic -/

/-- Doubles that are not NaN compare as these integers; both zeros are 0. -/
def key (x : F64) : ℤ := if x.neg then -(x.mag : ℤ) else x.mag

/-- The `<` of doubles, false for NaN. -/
def lt (x y : F64) : Bool := !x.isNaN && !y.isNaN && x.key < y.key

/-- The `<=` of doubles, false for NaN. -/
def le (x y : F64) : Bool := !x.isNaN && !y.isNaN && x.key ≤ y.key
/-- The `==` of doubles : NaN equals nothing, and the zeros are equal. -/
def eq (x y : F64) : Bool := !x.isNaN && !y.isNaN && x.key = y.key

/-- Doubles that compare equal are the same, or both are zeros. -/
theorem eq_or_zero_of_eq {x y : F64} (h : x.eq y = true) : x = y ∨ x.mag = 0 ∧ y.mag = 0 := by
  have hkey : x.key = y.key := by
    simp only [eq, Bool.and_eq_true, decide_eq_true_eq] at h
    exact h.2
  by_cases hzero : x.mag = 0 ∧ y.mag = 0
  · exact Or.inr hzero
  · refine Or.inl ?_
    unfold key at hkey
    have hneg : x.neg = y.neg := by
      cases hx : x.neg <;> cases hy : y.neg <;> simp [hx, hy] at hkey ⊢ <;> omega
    have hmag : x.mag = y.mag := by
      rw [hneg] at hkey
      split at hkey <;> omega
    rw [← make_neg_mag x, ← make_neg_mag y, hneg, hmag]

/-- The double without its sign. -/
def abs (x : F64) : F64 := make false x.mag

/-- The double with the other sign, a NaN included. -/
def negate (x : F64) : F64 := make (!x.neg) x.mag

/-- The greater double; NaN gives way to a number. -/
def max (x y : F64) : F64 :=
  if x.isNaN then y else if y.isNaN then x else if x.lt y then y else x

/-- A NaN with its quiet bit. -/
def quiet (x : F64) : F64 := make x.neg (x.mag ||| 2 ^ 51)

/-- The sum, rounded. -/
def add (x y : F64) : F64 :=
  if x.isNaN then x.quiet
  else if y.isNaN then y.quiet
  else if x.isInf then if y.isInf && x.neg != y.neg then indefinite else x
  else if y.isInf then y
  else
    let s := x.toUnits + y.toUnits
    if s = 0 then make (x.neg && y.neg) 0 else make (s < 0) (roundMag s.natAbs 1)

/-- The difference, rounded. A NaN that is subtracted keeps its sign. -/
def sub (x y : F64) : F64 := if !x.isNaN && y.isNaN then y.quiet else x.add y.negate

/-- The product, rounded. -/
def mul (x y : F64) : F64 :=
  if x.isNaN then x.quiet
  else if y.isNaN then y.quiet
  else if x.isInf || y.isInf then
    if x.mag = 0 || y.mag = 0 then indefinite else make (x.neg != y.neg) infMag
  else make (x.neg != y.neg) (roundMag (units x.mag * units y.mag) (2 ^ scale))

/-! ## Decimal text -/

/-- The magnitude pattern nearest to `d * 10 ^ p`. -/
def decimalMag (d : ℕ) (p : ℤ) : ℕ :=
  if 0 ≤ p then roundMag (d * 10 ^ p.toNat * 2 ^ scale) 1
  else roundMag (d * 2 ^ scale) (10 ^ (-p).toNat)

/-- A decimal number, and whether all of the text was one : digits, then a sign. -/
def parseExponent (cs : List Char) : Option ℤ :=
  let (sign, ds) : ℤ × List Char := match cs with
    | '-' :: ds => (-1, ds)
    | '+' :: ds => (1, ds)
    | ds => (1, ds)
  if ds ≠ [] && ds.all Char.isDigit then some (sign * Nat.ofDigitChars 10 ds 0) else none

/-- The digits of `cs` up to what follows the fraction, as an integer with the length of
the fraction. -/
def parseMantissa (cs : List Char) : Option (ℕ × ℕ × List Char) :=
  let ip := cs.takeWhile Char.isDigit
  let (fp, rest) := match cs.dropWhile Char.isDigit with
    | '.' :: rest => (rest.takeWhile Char.isDigit, rest.dropWhile Char.isDigit)
    | rest => ([], rest)
  if ip = [] && fp = [] then none
  else some (Nat.ofDigitChars 10 (ip ++ fp) 0, fp.length, rest)

/-- An unsigned number `d * 10 ^ p`. -/
def parseNumber (cs : List Char) : Option (ℕ × ℤ) :=
  match parseMantissa cs with
  | none => none
  | some (d, f, []) => some (d, -f)
  | some (d, f, c :: rest) =>
    if c = 'e' || c = 'E' then (parseExponent rest).map fun x => (d, x - f) else none

/-- The magnitude pattern of an unsigned text. -/
def parseMag (cs : List Char) : Option ℕ :=
  match parseNumber cs with
  | some (d, p) => some (decimalMag d p)
  | none =>
    let word := cs.map Char.toLower
    if word = "inf".toList || word = "infinity".toList then some infMag
    else if word = "nan".toList then some nan.mag
    else none

/-- Read a double : an optional sign, then a decimal number, `inf`, `infinity` or `nan`. -/
def parse (s : String) : Option F64 :=
  match s.toList with
  | '-' :: cs => (parseMag cs).map (make true)
  | '+' :: cs => (parseMag cs).map (make false)
  | cs => (parseMag cs).map (make false)

/-- `d * 10 ^ p` in positional notation. -/
def layout (d : ℕ) (p : ℤ) : List Char :=
  if 0 ≤ p then Nat.toDigits 10 d ++ List.replicate p.toNat '0'
  else
    let q := (-p).toNat
    let frac := Nat.toDigits 10 (d % 10 ^ q)
    Nat.toDigits 10 (d / 10 ^ q) ++ '.' :: (List.replicate (q - frac.length) '0' ++ frac)

/-- The two decimals of `n` digits next to `N * 10 ^ -scale`, the nearer one first, where
`N` has `len` digits. -/
def candidates (N len n : ℕ) : List (ℕ × ℤ) :=
  let t := 10 ^ (len - n)
  let p : ℤ := len - n - scale
  let down := (N / t, p)
  let up := if N / t + 1 = 10 ^ n then (1, p + n) else (N / t + 1, p)
  if t ≤ 2 * (N % t) then [up, down] else [down, up]

/-- The value of a finite magnitude pattern in units of `10 ^ -scale`. -/
def decimalUnits (m : ℕ) : ℕ := units m * 5 ^ scale

/-- The shortest decimal that reads back as `m`, the exact value at the latest. -/
def shortest (m : ℕ) : ℕ × ℤ :=
  let N := decimalUnits m
  let len := (Nat.toDigits 10 N).length
  (((List.range len).flatMap fun i => candidates N len (i + 1)).find?
    fun c => decimalMag c.1 c.2 = m).getD (N, -scale)

/-- Write a double : shortest digits, no exponent. -/
def display (x : F64) : String :=
  if x.isNaN then "NaN"
  else String.ofList ((if x.neg then ['-'] else []) ++
    if x.isInf then "inf".toList
    else if x.mag = 0 then ['0']
    else layout (shortest x.mag).1 (shortest x.mag).2)

/-! ## Reading back what was written -/

theorem decimalMag_exact {m : ℕ} (hm : m < infMag) :
    decimalMag (decimalUnits m) (-scale) = m := by
  have h : decimalUnits m * 2 ^ scale = units m * 10 ^ scale := by
    rw [decimalUnits, mul_assoc, ← mul_pow, show 5 * 2 = 10 from rfl]
  have hneg : ¬ (0 : ℤ) ≤ -scale := by decide
  rw [decimalMag, if_neg hneg, h, neg_neg, Int.toNat_natCast]
  exact roundMag_units hm (Nat.pow_pos (by norm_num))

/-- The first candidate that passes, or a default that does. -/
theorem getD_find?_of_default {α : Type*} {p : α → Bool} {a : α} (ha : p a = true) (l : List α) :
    p ((l.find? p).getD a) = true := by
  cases hfind : l.find? p with
  | none => exact ha
  | some b => exact List.find?_some hfind

theorem decimalMag_shortest {m : ℕ} (hm : m < infMag) :
    decimalMag (shortest m).1 (shortest m).2 = m := by
  have h := getD_find?_of_default
    (p := fun c : ℕ × ℤ => decide (decimalMag c.1 c.2 = m)) (a := (decimalUnits m, -scale))
    (decide_eq_true (decimalMag_exact hm))
  exact of_decide_eq_true (h _)

theorem isDigit_of_mem_toDigits {n : ℕ} {c : Char} (hc : c ∈ Nat.toDigits 10 n) :
    c.isDigit = true :=
  Nat.isDigit_of_mem_toDigits (by norm_num) (by norm_num) hc

/-- Digits alone read as an integer. -/
theorem parseMantissa_digits {ds : List Char} (hne : ds ≠ []) (hds : ∀ c ∈ ds, c.isDigit = true) :
    parseMantissa ds = some (Nat.ofDigitChars 10 ds 0, 0, []) := by
  have htake : ds.takeWhile Char.isDigit = ds := List.takeWhile_eq_self_iff.mpr hds
  have hdrop : ds.dropWhile Char.isDigit = [] := List.dropWhile_eq_nil_iff.mpr hds
  simp [parseMantissa, htake, hdrop, hne]

/-- Digits around a point read as the integer of all of them. -/
theorem parseMantissa_point {ip fp : List Char} (hne : ip ≠ [])
    (hip : ∀ c ∈ ip, c.isDigit = true) (hfp : ∀ c ∈ fp, c.isDigit = true) :
    parseMantissa (ip ++ '.' :: fp) = some (Nat.ofDigitChars 10 (ip ++ fp) 0, fp.length, []) := by
  have hdot : ('.' : Char).isDigit = false := by decide
  have htake : (ip ++ '.' :: fp).takeWhile Char.isDigit = ip := by
    rw [List.takeWhile_append_of_pos hip, List.takeWhile_cons_of_neg (by simp [hdot]),
      List.append_nil]
  have hdrop : (ip ++ '.' :: fp).dropWhile Char.isDigit = '.' :: fp := by
    rw [List.dropWhile_append_of_pos hip, List.dropWhile_cons_of_neg (by simp [hdot])]
  have htake' : fp.takeWhile Char.isDigit = fp := List.takeWhile_eq_self_iff.mpr hfp
  have hdrop' : fp.dropWhile Char.isDigit = [] := List.dropWhile_eq_nil_iff.mpr hfp
  simp [parseMantissa, htake, hdrop, htake', hdrop', hne]

theorem isDigit_of_mem_replicate {n : ℕ} {c : Char} (hc : c ∈ List.replicate n '0') :
    c.isDigit = true := by
  rw [List.eq_of_mem_replicate hc]
  decide

theorem toDigits_ne_nil (n : ℕ) : Nat.toDigits 10 n ≠ [] :=
  List.ne_nil_of_length_pos Nat.length_toDigits_pos

theorem length_toDigits_le {r q : ℕ} (hq : 0 < q) (hr : r < 10 ^ q) :
    (Nat.toDigits 10 r).length ≤ q :=
  (Nat.length_toDigits_le_iff (by norm_num) hq).mpr hr

/-- The digits before and after the point, read as one integer. -/
theorem ofDigitChars_split {d q : ℕ} (hq : 0 < q) :
    Nat.ofDigitChars 10 (Nat.toDigits 10 (d / 10 ^ q) ++
      (List.replicate (q - (Nat.toDigits 10 (d % 10 ^ q)).length) '0' ++
        Nat.toDigits 10 (d % 10 ^ q))) 0 = d := by
  have hlen := length_toDigits_le hq (Nat.mod_lt d (Nat.pow_pos (n := q) (by norm_num : 0 < 10)))
  rw [Nat.ofDigitChars_append, Nat.ofDigitChars_ten_toDigits, Nat.ofDigitChars_append,
    Nat.ofDigitChars_replicate_zero, Nat.ofDigitChars_eq_ofDigitChars_zero,
    Nat.ofDigitChars_ten_toDigits, ← mul_assoc, ← pow_add, Nat.add_sub_cancel' hlen]
  exact Nat.div_add_mod d (10 ^ q)

/-- A decimal in positional notation reads as itself. -/
theorem parseMag_layout (d : ℕ) (p : ℤ) : parseMag (layout d p) = some (decimalMag d p) := by
  unfold layout
  split
  · next hp =>
    rw [parseMag, parseNumber, parseMantissa_digits]
    · simp [Nat.ofDigitChars_append, decimalMag, hp, mul_comm d]
    · simp
    · intro c hc
      rcases List.mem_append.mp hc with hc | hc
      · exact isDigit_of_mem_toDigits hc
      · exact isDigit_of_mem_replicate hc
  · next hp =>
    have hq : 0 < (-p).toNat := by omega
    have hcast : -(((-p).toNat : ℕ) : ℤ) = p := by omega
    have hlen := length_toDigits_le hq
      (Nat.mod_lt d (Nat.pow_pos (n := (-p).toNat) (by norm_num : 0 < 10)))
    rw [parseMag, parseNumber, parseMantissa_point (toDigits_ne_nil _)
      (fun c hc => isDigit_of_mem_toDigits hc)]
    · simp only [ofDigitChars_split hq, List.length_append, List.length_replicate,
        Nat.sub_add_cancel hlen, hcast]
    · intro c hc
      rcases List.mem_append.mp hc with hc | hc
      · exact isDigit_of_mem_replicate hc
      · exact isDigit_of_mem_toDigits hc

/-- Neither a number nor a word starts with a sign. -/
theorem parseMag_sign {c : Char} (hc : c = '+' ∨ c = '-') (cs : List Char) :
    parseMag (c :: cs) = none := by
  rcases hc with rfl | rfl
  · simp [parseMag, parseNumber, parseMantissa, show ('+' : Char).isDigit = false by decide]
  · simp [parseMag, parseNumber, parseMantissa, show ('-' : Char).isDigit = false by decide]

/-- A sign and an unsigned text. -/
theorem parse_ofList {neg : Bool} {cs : List Char} {m : ℕ} (hcs : parseMag cs = some m) :
    parse (String.ofList ((if neg then ['-'] else []) ++ cs)) = some (make neg m) := by
  cases neg with
  | true => simp [parse, hcs]
  | false =>
    simp only [parse, Bool.false_eq_true, if_false, List.nil_append, String.toList_ofList]
    split
    · rw [parseMag_sign (Or.inr rfl)] at hcs
      cases hcs
    · rw [parseMag_sign (Or.inl rfl)] at hcs
      cases hcs
    · rw [hcs, Option.map_some]

/-- Reading what was written gives the double back. -/
theorem parse_display {x : F64} (hx : x.isNaN = false) : parse x.display = some x := by
  rw [display, hx, if_neg Bool.false_ne_true]
  have hle : x.mag ≤ infMag := by simpa [isNaN] using hx
  suffices h : parseMag (if x.isInf then "inf".toList else if x.mag = 0 then ['0'] else
      layout (shortest x.mag).1 (shortest x.mag).2) = some x.mag by
    rw [parse_ofList h, make_neg_mag]
  split
  · next hinf =>
    rw [show x.mag = infMag by simpa [isInf] using hinf]
    rfl
  · next hinf =>
    split
    · next hzero =>
      rw [hzero]
      decide +kernel
    · have hlt : x.mag < infMag := lt_of_le_of_ne hle (by simpa [isInf] using hinf)
      rw [parseMag_layout, decimalMag_shortest hlt]

example : (parse "3.0e-1").map display = some "0.3" := by decide +kernel

example : (parse "1e23").map display = some "100000000000000000000000" := by decide +kernel

end F64
