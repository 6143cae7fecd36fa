import Mathlib.Data.Int.Basic
import Mathlib.Data.List.Infix
import Mathlib.Data.List.TakeWhile
import Mathlib.Tactic.Ring

/-!
# Numbers and words in text

Machine integers as the integers of their range, with the wrapping arithmetic of a
release build, and the reading of integers and keywords from strings : `trim` removes
Unicode white space, `parseI64` reads an optional sign and decimal digits and refuses
what does not fit, `toUppercase` maps to upper case. A text that is quoted in a line of a
protocol must not end the line (`OneLine`).
-/

namespace Text

/-! ## 64-bit integers -/

/-- The least integer of 64 bits. -/
def i64Min : ℤ := -2 ^ 63

/-- The greatest integer of 64 bits. -/
def i64Max : ℤ := 2 ^ 63 - 1

/-- An integer of the range of `i64`. -/
abbrev I64 := { n : ℤ // i64Min ≤ n ∧ n ≤ i64Max }

/-- The integer of the range of `i64` that `x` wraps to. -/
def wrap (x : ℤ) : I64 :=
  ⟨Int.bmod x (2 ^ 64), by
    have hlo := Int.le_bmod (x := x) (m := 2 ^ 64) (by decide)
    have hhi := Int.bmod_lt (x := x) (m := 2 ^ 64) (by decide)
    simp only [i64Min, i64Max]
    omega⟩

/-- A cast to `usize`. -/
def asUsize (x : ℤ) : ℕ := (x % 2 ^ 64).toNat

/-- A sum of `usize` values. -/
def addUsize (x y : ℕ) : ℕ := (x + y) % 2 ^ 64

theorem wrap_of_fits {x : ℤ} (h : i64Min ≤ x ∧ x ≤ i64Max) : (wrap x).1 = x := by
  simp only [i64Min, i64Max] at h
  simp only [wrap, Int.bmod]
  omega

theorem asUsize_of_nonneg {x : ℤ} (h₀ : 0 ≤ x) (h : x ≤ i64Max) : asUsize x = x.natAbs := by
  rw [i64Max] at h
  rw [asUsize, Int.emod_eq_of_lt h₀ (by omega)]
  omega

/-- An integer, if it is in the range. -/
def fits (x : ℤ) : Option I64 := if h : i64Min ≤ x ∧ x ≤ i64Max then some ⟨x, h⟩ else none

/-- The sum, unless it overflows. -/
def checkedAdd (x y : I64) : Option I64 := fits (x + y)

/-- The positions that a window with ends `start` and `stop` covers in a sequence of
length `len` : the first one, and the one after the last. Negative ends count from the
end. -/
def window (len start stop : ℤ) : ℕ × ℕ :=
  (asUsize (max (if start < 0 then wrap (len + start) else start) 0),
    asUsize (max (min (if stop < 0 then wrap (wrap (len + stop) + 1) else wrap (stop + 1)) len) 0))

/-! ## Reading -/

/-- The characters with the Unicode property White_Space. -/
def isWhitespace (c : Char) : Bool :=
  let n := c.toNat
  (9 ≤ n && n ≤ 13) || n = 0x20 || n = 0x85 || n = 0xA0 || n = 0x1680 ||
    (0x2000 ≤ n && n ≤ 0x200A) || n = 0x2028 || n = 0x2029 || n = 0x202F || n = 0x205F ||
    n = 0x3000

/-- Without white space at either end. -/
def trim (cs : List Char) : List Char :=
  ((cs.dropWhile isWhitespace).reverse.dropWhile isWhitespace).reverse

/-- Decimal digits, at least one. -/
def parseDigits (cs : List Char) : Option ℕ :=
  if cs ≠ [] && cs.all Char.isDigit then some (Nat.ofDigitChars 10 cs 0) else none

/-- A decimal integer with an optional sign, of any size. -/
def parseInt (cs : List Char) : Option ℤ :=
  match cs with
  | '-' :: ds => (parseDigits ds).map fun n : ℕ => -(n : ℤ)
  | '+' :: ds => (parseDigits ds).map fun n : ℕ => (n : ℤ)
  | ds => (parseDigits ds).map fun n : ℕ => (n : ℤ)

/-- A decimal integer with an optional sign, if it fits. -/
def parseI64 (cs : List Char) : Option I64 :=
  match cs with
  | '-' :: ds => (parseDigits ds).bind fun n => fits (-n)
  | '+' :: ds => (parseDigits ds).bind fun n => fits n
  | ds => (parseDigits ds).bind fun n => fits n

theorem parseI64_eq (cs : List Char) : parseI64 cs = (parseInt cs).bind fits := by
  unfold parseI64 parseInt
  split <;> rw [Option.bind_map] <;> rfl

theorem isWhitespace_of_isDigit {c : Char} (h : c.isDigit = true) : isWhitespace c = false := by
  simp only [Char.isDigit, Bool.and_eq_true, decide_eq_true_eq, ge_iff_le] at h
  have h₁ : 48 ≤ c.toNat := h.1
  have h₂ : c.toNat ≤ 57 := h.2
  simp only [isWhitespace, Bool.or_eq_false_iff, Bool.and_eq_false_iff, decide_eq_false_iff_not]
  omega

theorem trim_of_no_whitespace {cs : List Char} (h : ∀ c ∈ cs, isWhitespace c = false) :
    trim cs = cs := by
  have hdrop {l : List Char} (hl : ∀ c ∈ l, isWhitespace c = false) :
      l.dropWhile isWhitespace = l := by
    cases l with
    | nil => rfl
    | cons c l => rw [List.dropWhile_cons_of_neg (by simp [hl c])]
  rw [trim, hdrop h, hdrop (by simpa using h), List.reverse_reverse]

/-- A decimal number reads back as itself. -/
theorem parseDigits_toDigits (n : ℕ) : parseDigits (Nat.toDigits 10 n) = some n := by
  have hdigits : (Nat.toDigits 10 n).all Char.isDigit = true :=
    List.all_eq_true.mpr fun c hc => Nat.isDigit_of_mem_toDigits (by decide) (by decide) hc
  simp [parseDigits, Nat.toDigits_ne_nil, hdigits, Nat.ofDigitChars_ten_toDigits]

theorem parseI64_toDigits (n : ℕ) : parseI64 (Nat.toDigits 10 n) = fits n := by
  have hparse := parseDigits_toDigits n
  obtain ⟨c, cs, hcs⟩ := List.exists_cons_of_ne_nil (@Nat.toDigits_ne_nil n 10)
  have hc : c.isDigit = true :=
    Nat.isDigit_of_mem_toDigits (b := 10) (n := n) (by decide) (by decide) (by simp [hcs])
  rw [hcs] at hparse ⊢
  unfold parseI64
  split
  · next h =>
    rw [(List.cons.inj h).1] at hc
    exact absurd hc (by decide)
  · next h =>
    rw [(List.cons.inj h).1] at hc
    exact absurd hc (by decide)
  · rw [hparse, Option.bind_some]

theorem parseI64_toString (n : I64) : parseI64 (toString n.val).toList = some n := by
  have hfits : fits n.val = some n := dif_pos n.property
  rw [Int.toString_eq_repr, Int.repr_eq_if]
  split
  · next hpos =>
    rw [Nat.toList_repr, parseI64_toDigits, Int.toNat_of_nonneg hpos, hfits]
  · next hneg =>
    have hminus : "-".toList = ['-'] := rfl
    have hval : -(((-n.val).toNat : ℕ) : ℤ) = n.val := by
      rw [Int.toNat_of_nonneg (by omega), Int.neg_neg]
    rw [String.toList_append, Nat.toList_repr, hminus, List.singleton_append, parseI64,
      parseDigits_toDigits, Option.bind_some, hval, hfits]

theorem isWhitespace_of_mem_toString (n : ℤ) : ∀ c ∈ (toString n).toList, isWhitespace c = false := by
  have hdigits (m : ℕ) : ∀ c ∈ m.repr.toList, isWhitespace c = false := by
    intro c hc
    rw [Nat.toList_repr] at hc
    exact isWhitespace_of_isDigit (Nat.isDigit_of_mem_toDigits (by decide) (by decide) hc)
  rw [Int.toString_eq_repr, Int.repr_eq_if]
  split
  · exact hdigits _
  · intro c hc
    rw [String.toList_append, List.mem_append] at hc
    rcases hc with hc | hc
    · rw [List.mem_singleton.mp hc]
      rfl
    · exact hdigits _ c hc

theorem mem_trim {cs : List Char} {c : Char} (hc : c ∈ cs) (hw : isWhitespace c = false) :
    c ∈ trim cs := by
  have hdrop : ∀ cs : List Char, c ∈ cs → c ∈ cs.dropWhile isWhitespace := by
    intro cs hc
    rw [← List.takeWhile_append_dropWhile (p := isWhitespace) (l := cs), List.mem_append] at hc
    refine hc.resolve_left fun htake => ?_
    rw [List.mem_takeWhile_imp htake] at hw
    cases hw
  rw [trim, List.mem_reverse]
  exact hdrop _ (List.mem_reverse.mpr (hdrop _ hc))

/-- An integer is read from digits and signs only. -/
theorem isDigit_or_sign {cs : List Char} {n : I64} (h : parseI64 cs = some n) {c : Char}
    (hc : c ∈ cs) : c.isDigit = true ∨ c = '-' ∨ c = '+' := by
  have hdigits {ds : List Char} {g : ℕ → Option I64} (h : (parseDigits ds).bind g = some n)
      (hc : c ∈ ds) : c.isDigit = true := by
    unfold parseDigits at h
    split at h
    · next hall =>
      simp only [Bool.and_eq_true] at hall
      exact List.all_eq_true.mp hall.2 c hc
    · cases h
  unfold parseI64 at h
  split at h
  · rcases List.mem_cons.mp hc with rfl | hc
    · exact .inr (.inl rfl)
    · exact .inl (hdigits h hc)
  · rcases List.mem_cons.mp hc with rfl | hc
    · exact .inr (.inr rfl)
    · exact .inl (hdigits h hc)
  · exact .inl (hdigits h hc)

/-- A port number. -/
def parseU16 (cs : List Char) : Option ℕ :=
  let n := match cs with
    | '+' :: ds => parseDigits ds
    | ds => parseDigits ds
  n.filter fun n => n < 2 ^ 16

/-- The characters outside ASCII whose upper case is ASCII. Every other one is left as it
is : the result is compared with ASCII keywords, and otherwise only quoted in an error. -/
def upperSpecial : List (Char × String) :=
  [('ı', "I"), ('ſ', "S"), ('ß', "SS"), ('ﬀ', "FF"), ('ﬁ', "FI"), ('ﬂ', "FL"), ('ﬃ', "FFI"),
    ('ﬄ', "FFL"), ('ﬅ', "ST"), ('ﬆ', "ST")]

/-- Upper case, character by character. -/
def toUppercase (s : String) : String :=
  String.ofList (s.toList.flatMap fun c =>
    match upperSpecial.lookup c with
    | some t => t.toList
    | none => [c.toUpper])

/-- ASCII upper case, byte by byte. -/
def toAsciiUppercase (b : UInt8) : UInt8 :=
  if 0x61 ≤ b && b ≤ 0x7A then b - 32 else b

/-! ## Lines -/

/-- A text without a line end. -/
def OneLine (s : String) : Prop := ¬ ['\r', '\n'] <:+: s.toList

/-- The text is searched for a line end. -/
instance (s : String) : Decidable (OneLine s) := inferInstanceAs (Decidable (¬ _))

/-- Two neighbours in a text that is mapped character by character, if nothing else is mapped
to them. -/
theorem pair_infix_flatMap_iff {α β : Type*} {f : α → List β} {a b : α} {x y : β} (ha : f a = [x])
    (hb : f b = [y]) (hx : ∀ c, x ∈ f c → c = a) (hy : ∀ c, y ∈ f c → c = b) (hne : ∀ c, f c ≠ []) :
    ∀ cs : List α, [x, y] <:+: cs.flatMap f ↔ [a, b] <:+: cs
  | [] => by simp
  | c :: cs => by
    rw [List.flatMap_cons, List.infix_cons_iff, ← pair_infix_flatMap_iff ha hb hx hy hne cs]
    constructor
    · rintro ⟨u, v, h⟩
      rw [List.append_assoc] at h
      rcases List.append_eq_append_iff.mp h with ⟨w, hw, hrest⟩ | ⟨w, rfl, hrest⟩
      · cases w with
        | nil => exact .inr ⟨[], v, by simpa using hrest⟩
        | cons z w =>
          -- The pair starts inside the image of `c`.
          obtain ⟨rfl, htail⟩ := List.cons.inj hrest
          obtain rfl : c = a := hx c (by rw [hw]; exact List.mem_append_right _ List.mem_cons_self)
          rw [ha] at hw
          have hnil : u = [] ∧ w = [] := by
            cases u with
            | nil => exact ⟨rfl, ((List.cons.inj hw).2).symm⟩
            | cons z u => simp at hw
          obtain ⟨rfl, rfl⟩ := hnil
          left
          cases cs with
          | nil => simp at htail
          | cons d cs =>
            replace htail : y :: v = f d ++ cs.flatMap f := htail
            cases hd : f d with
            | nil => exact absurd hd (hne d)
            | cons z l =>
              rw [hd] at htail
              obtain ⟨rfl, -⟩ := List.cons.inj htail
              obtain rfl : d = b := hy d (by rw [hd]; exact List.mem_cons_self)
              exact ⟨cs, rfl⟩
      · exact .inr ⟨w, v, by rw [List.append_assoc]; exact hrest.symm⟩
    · rintro (⟨r, hr⟩ | h)
      · obtain ⟨rfl, rfl⟩ := List.cons.inj hr
        exact ⟨[], r.flatMap f, by simp [ha, hb]⟩
      · exact h.trans (List.suffix_append ..).isInfix

/-- A line end in a text of two parts, if it cannot lie across them. -/
theorem oneLine_append {s t : String}
    (h : s.toList.getLast? ≠ some '\r' ∨ t.toList.head? ≠ some '\n') :
    OneLine (s ++ t) ↔ OneLine s ∧ OneLine t := by
  rw [OneLine, OneLine, OneLine, ← not_or, not_iff_not, String.toList_append]
  constructor
  · rintro ⟨u, v, huv⟩
    rw [List.append_assoc] at huv
    rcases List.append_eq_append_iff.mp huv with ⟨w, hw, hrest⟩ | ⟨w, rfl, hrest⟩
    · match w, hrest with
      | [], hrest => exact .inr ⟨[], v, by simpa using hrest⟩
      | [c], hrest =>
        obtain ⟨rfl, ht⟩ := List.cons.inj hrest
        replace ht : '\n' :: v = t.toList := ht
        refine absurd h (not_or.mpr ⟨not_not.mpr ?_, not_not.mpr ?_⟩)
        · rw [hw]
          simp
        · rw [← ht]
          rfl
      | c :: d :: w, hrest =>
        simp only [List.cons_append, List.nil_append, List.cons.injEq] at hrest
        obtain ⟨rfl, rfl, -⟩ := hrest
        exact .inl ⟨u, w, by rw [hw]; simp⟩
    · exact .inr ⟨w, v, by rw [List.append_assoc]; exact hrest.symm⟩
  · rintro (hs | ht)
    · exact hs.trans (List.prefix_append ..).isInfix
    · exact ht.trans (List.suffix_append ..).isInfix

/-- Whether every character comes after the control characters that end lines. -/
def printable (cs : List Char) : Bool := cs.all fun c => 13 < c.toNat

theorem ne_of_printable {cs : List Char} (h : printable cs = true) {c : Char} (hc : c ∈ cs) :
    c ≠ '\r' ∧ c ≠ '\n' := by
  have hlt : 13 < c.toNat := by simpa using List.all_eq_true.mp h c hc
  constructor <;> rintro rfl <;> exact absurd hlt (by decide)

/-- This is checked faster than the text of a literal is taken apart. -/
theorem oneLine_ofList {cs : List Char} (h : printable cs = true) : OneLine (String.ofList cs) := by
  rintro ⟨u, v, huv⟩
  rw [String.toList_ofList] at huv
  exact (ne_of_printable h (c := '\r') (by rw [← huv]; simp)).1 rfl

/-- A text between two others. -/
theorem oneLine_between {p q : List Char} {s : String} (hp : printable p = true)
    (hq : printable q = true) :
    OneLine (String.ofList p ++ s ++ String.ofList q) ↔ OneLine s := by
  have hlast : (String.ofList p).toList.getLast? ≠ some '\r' := fun hl => by
    rw [String.toList_ofList] at hl
    exact (ne_of_printable hp (List.mem_of_getLast? hl)).1 rfl
  have hhead : (String.ofList q).toList.head? ≠ some '\n' := fun hl => by
    rw [String.toList_ofList] at hl
    exact (ne_of_printable hq (List.mem_of_head? hl)).2 rfl
  rw [oneLine_append (.inr hhead), oneLine_append (.inl hlast)]
  simp [oneLine_ofList hp, oneLine_ofList hq]

/-- No control character is the upper case of another character. -/
theorem mem_upper_iff {c x : Char} (hx : x.toNat < 32) :
    (x ∈ match upperSpecial.lookup c with | some t => t.toList | none => [c.toUpper]) ↔ c = x := by
  cases hc : upperSpecial.lookup c with
  | some t =>
    have hall : upperSpecial.all (fun p => decide (32 ≤ p.1.toNat) &&
        p.2.toList.all fun d => decide (32 ≤ d.toNat)) = true := by decide
    obtain ⟨l₁, l₂, hl, -⟩ := List.lookup_eq_some_iff.mp hc
    have hpair := List.all_eq_true.mp hall (c, t) (by rw [hl]; simp)
    rw [Bool.and_eq_true, decide_eq_true_eq, List.all_eq_true] at hpair
    obtain ⟨hlow, hup⟩ := hpair
    refine iff_of_false (fun hmem => ?_) fun heq => ?_
    · have := of_decide_eq_true (hup x hmem)
      omega
    · rw [heq] at hlow
      exact absurd hx (not_lt.mpr hlow)
  | none =>
    rw [List.mem_singleton]
    unfold Char.toUpper
    split
    · next hlower =>
      have hlo : 97 ≤ c.toNat := hlower.1
      have hhi : c.toNat ≤ 122 := hlower.2
      refine iff_of_false (fun heq => ?_) fun heq => ?_
      · have hshift : ('A'.val - 'a'.val).toNat = 2 ^ 32 - 32 := by decide
        have hnat := congrArg (fun d : Char => d.val.toNat) heq
        simp only [UInt32.toNat_add, hshift] at hnat
        unfold Char.toNat at hx hlo hhi
        omega
      · rw [heq] at hlo
        omega
    · exact eq_comm

theorem oneLine_toUppercase (s : String) : OneLine (toUppercase s) ↔ OneLine s := by
  rw [OneLine, OneLine, not_iff_not, toUppercase, String.toList_ofList]
  refine pair_infix_flatMap_iff (by decide) (by decide) (fun c hc => ?_) (fun c hc => ?_)
    (fun c hc => ?_) s.toList
  · exact (mem_upper_iff (by decide)).mp hc
  · exact (mem_upper_iff (by decide)).mp hc
  · have hall : ∀ p ∈ upperSpecial, p.2.toList ≠ [] := by decide
    split at hc
    · next t ht =>
      obtain ⟨l₁, l₂, hl, -⟩ := List.lookup_eq_some_iff.mp ht
      exact hall (c, t) (by rw [hl]; simp) hc
    · cases hc

end Text
