import LoonyRedis.Lib.Text
import Mathlib.Data.List.Basic
import Mathlib.Data.List.Nodup
import Mathlib.Data.List.TakeWhile
import Mathlib.Algebra.Ring.Int.Defs

/-!
# Windows of a list

The elements of a list at the positions from `lo` to `hi`, both included, and the window of two
integers that count from the front, or from the end if they are negative. All of it is in exact
integers : the ends may be anywhere, and a window whose first position is after its last one is
empty.

`between_eq` gives the elements by `drop` and `take`, `reverse_between` says which window of the
reversed list the reversed elements are, and `between_inj` that in a list without repetition the
elements determine the window. `textWindow_fst` and `textWindow_snd` say that the positions that
`Text.window` computes in 64-bit integers are those of the window, unless its last position wraps.
-/

namespace Window

variable {α : Type*} {l : List α} {n lo hi lo' hi' start stop : ℤ}

/-- The elements at the positions `lo` to `hi`. -/
def between (l : List α) (lo hi : ℤ) : List α :=
  (l.zipIdx.filter fun p => lo ≤ p.2 ∧ (p.2 : ℤ) ≤ hi).map Prod.fst

/-- The position that `start` means in a list of length `n`, or the first one. -/
def first (n start : ℤ) : ℤ := max 0 (if start < 0 then n + start else start)

/-- The position that `stop` means in a list of length `n`, or the last one. -/
def last (n stop : ℤ) : ℤ := min (n - 1) (if stop < 0 then n + stop else stop)

/-- The elements from `start` to `stop`. -/
def window (l : List α) (start stop : ℤ) : List α :=
  between l (first l.length start) (last l.length stop)

theorem first_nonneg (n start : ℤ) : 0 ≤ first n start := by
  rw [first]
  omega

theorem last_lt (n stop : ℤ) : last n stop < n := by
  rw [last]
  omega

/-! ## By dropping and taking -/

theorem filter_zipIdx_eq (lo hi : ℤ) : ∀ (l : List α) (k : ℕ),
    ((l.zipIdx k).filter fun p => lo ≤ p.2 ∧ (p.2 : ℤ) ≤ hi).map Prod.fst =
      (l.drop (lo - k).toNat).take (hi + 1 - max lo k).toNat
  | [], k => by simp
  | a :: l, k => by
    have ih := filter_zipIdx_eq lo hi l (k + 1)
    rw [List.zipIdx_cons, List.filter_cons]
    by_cases hlo : lo ≤ k
    · have hdrop : (lo - k).toNat = 0 := by omega
      have hdrop' : (lo - (k + 1 : ℕ)).toNat = 0 := by omega
      rw [hdrop', List.drop_zero] at ih
      rw [hdrop, List.drop_zero]
      by_cases hhi : (k : ℤ) ≤ hi
      · have htake : (hi + 1 - max lo k).toNat = (hi + 1 - max lo (k + 1 : ℕ)).toNat + 1 := by
          omega
        simp only [hlo, hhi, and_self, decide_true, if_true, List.map_cons, htake,
          List.take_succ_cons, ih]
      · have htake : (hi + 1 - max lo k).toNat = 0 := by omega
        have htake' : (hi + 1 - max lo (k + 1 : ℕ)).toNat = 0 := by omega
        rw [htake', List.take_zero] at ih
        simp only [hlo, hhi, and_false, decide_false, Bool.false_eq_true, if_false, htake,
          List.take_zero, ih]
    · have hdrop : (lo - k).toNat = (lo - (k + 1 : ℕ)).toNat + 1 := by omega
      have htake : max lo k = max lo (k + 1 : ℕ) := by omega
      simp only [hlo, false_and, decide_false, Bool.false_eq_true, if_false, hdrop, htake,
        List.drop_succ_cons, ih]

theorem between_eq (hlo : 0 ≤ lo) :
    between l lo hi = (l.drop lo.toNat).take (hi + 1 - lo).toNat := by
  have h := filter_zipIdx_eq lo hi l 0
  have hmax : max lo (0 : ℕ) = lo := by omega
  rw [hmax, Nat.cast_zero, sub_zero] at h
  exact h

theorem between_sublist (l : List α) (lo hi : ℤ) : (between l lo hi).Sublist l := by
  have hzip : (l.zipIdx.map Prod.fst).Sublist l := by rw [List.zipIdx_map_fst]
  exact (List.filter_sublist.map _).trans hzip

theorem length_between (hlo : 0 ≤ lo) (hhi : hi < l.length) :
    (between l lo hi).length = (hi + 1 - lo).toNat := by
  rw [between_eq hlo, List.length_take, List.length_drop]
  omega

/-- The elements in order, each at its position. -/
theorem getElem?_between (hlo : 0 ≤ lo) (i : ℕ) :
    (between l lo hi)[i]? = if lo + i ≤ hi then l[lo.toNat + i]? else none := by
  rw [between_eq hlo, List.getElem?_take, List.getElem?_drop]
  split <;> split <;> first | rfl | omega

theorem between_eq_nil (h : hi < lo) : between l lo hi = [] := by
  refine List.map_eq_nil_iff.mpr (List.filter_eq_nil_iff.mpr fun p _ => ?_)
  rw [decide_eq_true_eq]
  omega

/-- The window of one position. -/
theorem window_self (l : List α) (r : ℕ) : window l r r = l[r]?.toList := by
  have hfirst : first l.length r = r := by
    rw [first]
    omega
  by_cases hr : r < l.length
  · have hlast : last l.length r = r := by
      rw [last]
      omega
    have hone : ((r : ℤ) + 1 - r).toNat = 1 := by omega
    rw [window, hfirst, hlast, between_eq (by omega), hone, Int.toNat_natCast, List.take_one,
      List.head?_drop]
  · have hlast := last_lt l.length r
    rw [window, between_eq_nil (by omega), List.getElem?_eq_none (by omega), Option.toList_none]

theorem window_whole (l : List α) : window l 0 (-1) = l := by
  have hfirst : first l.length 0 = 0 := by
    rw [first]
    omega
  have hlast : last l.length (-1) = l.length - 1 := by
    rw [last]
    omega
  have hlength : ((l.length : ℤ) - 1 + 1 - 0).toNat = l.length := by omega
  rw [window, hfirst, hlast, between_eq le_rfl, hlength, Int.toNat_zero, List.drop_zero,
    List.take_length]

/-! ## Reversing -/

/-- The positions of the elements, counted from the other end. -/
theorem reverse_between (hlo : 0 ≤ lo) (hhi : hi < l.length) :
    (between l lo hi).reverse = between l.reverse (l.length - 1 - hi) (l.length - 1 - lo) := by
  refine List.ext_getElem? fun i => ?_
  by_cases hi' : i < (between l lo hi).length
  · rw [List.getElem?_reverse hi', getElem?_between hlo, getElem?_between (by omega)]
    rw [length_between hlo hhi] at hi' ⊢
    rw [if_pos (by omega), if_pos (by omega), List.getElem?_reverse (by omega)]
    congr 1
    omega
  · have hle : (between l lo hi).length ≤ i := by omega
    rw [List.getElem?_eq_none (by simpa using hle), getElem?_between (by omega)]
    rw [length_between hlo hhi] at hle
    rw [if_neg (by omega)]

/-! ## Windows that are the same -/

/-- In a list without repetition, elements that are the same are at the same positions. -/
theorem between_inj (hl : l.Nodup) (hlo : 0 ≤ lo) (hhi : hi < l.length) (hlo' : 0 ≤ lo')
    (hhi' : hi' < l.length) (hle : lo ≤ hi) :
    between l lo hi = between l lo' hi' ↔ lo = lo' ∧ hi = hi' := by
  refine ⟨fun h => ?_, fun ⟨h, h'⟩ => by rw [h, h']⟩
  have hlength := congrArg List.length h
  rw [length_between hlo hhi, length_between hlo' hhi'] at hlength
  have hfirst := congrArg (fun l => l[0]?) h
  simp only [getElem?_between hlo, getElem?_between hlo', Nat.cast_zero, add_zero] at hfirst
  rw [if_pos hle, if_pos (by omega)] at hfirst
  have hlt : lo.toNat < l.length := by omega
  have hlt' : lo'.toNat < l.length := by omega
  rw [List.getElem?_eq_getElem hlt, List.getElem?_eq_getElem hlt', Option.some.injEq,
    hl.getElem_inj_iff] at hfirst
  omega

/-! ## In machine integers -/

theorem textWindow_fst {n start : ℤ} (stop : ℤ) (hn : 0 ≤ n) (hn' : n < 2 ^ 63)
    (hstart : Text.i64Min ≤ start) (hstart' : start ≤ Text.i64Max) :
    (Text.window n start stop).1 = (first n start).toNat := by
  have hfirst : max (if start < 0 then (Text.wrap (n + start)).1 else start) 0 =
      first n start := by
    rw [first]
    simp only [Text.i64Min, Text.i64Max] at hstart hstart'
    split
    · have hfits : Text.i64Min ≤ n + start ∧ n + start ≤ Text.i64Max := by
        simp only [Text.i64Min, Text.i64Max]
        omega
      rw [Text.wrap_of_fits hfits]
      omega
    · omega
  have hle : first n start ≤ Text.i64Max := by
    rw [first]
    simp only [Text.i64Max] at hstart' ⊢
    omega
  rw [Text.window, hfirst, Text.asUsize_of_nonneg (first_nonneg n start) hle]
  have hnonneg := first_nonneg n start
  omega

/-- One position further than the greatest integer wraps. -/
theorem textWindow_snd {n stop : ℤ} (start : ℤ) (hn : 0 ≤ n) (hn' : n < 2 ^ 63)
    (hstop : Text.i64Min ≤ stop) (hstop' : stop < Text.i64Max) :
    (Text.window n start stop).2 = (last n stop + 1).toNat := by
  have hlast : max (min (if stop < 0 then (Text.wrap ((Text.wrap (n + stop)).1 + 1)).1
      else (Text.wrap (stop + 1)).1) n) 0 = max (last n stop + 1) 0 := by
    rw [last]
    simp only [Text.i64Min, Text.i64Max] at hstop hstop'
    split
    · have hfits : Text.i64Min ≤ n + stop ∧ n + stop ≤ Text.i64Max := by
        simp only [Text.i64Min, Text.i64Max]
        omega
      have hnext : Text.i64Min ≤ n + stop + 1 ∧ n + stop + 1 ≤ Text.i64Max := by
        simp only [Text.i64Min, Text.i64Max]
        omega
      rw [Text.wrap_of_fits hfits, Text.wrap_of_fits hnext]
      omega
    · have hnext : Text.i64Min ≤ stop + 1 ∧ stop + 1 ≤ Text.i64Max := by
        simp only [Text.i64Min, Text.i64Max]
        omega
      rw [Text.wrap_of_fits hnext]
      omega
  have hlt := last_lt n stop
  have hle : max (last n stop + 1) 0 ≤ Text.i64Max := by
    simp only [Text.i64Max]
    omega
  have hcast : (Text.window n start stop).2 = Text.asUsize (max (last n stop + 1) 0) := by
    rw [← hlast, Text.window]
  rw [hcast, Text.asUsize_of_nonneg (by omega) hle]
  omega

/-- The greatest integer wraps, and the window that is computed has no positions. -/
theorem textWindow_snd_max (n start : ℤ) : (Text.window n start Text.i64Max).2 = 0 := by
  have hpos : ¬ Text.i64Max < 0 := by decide
  have hwrap : (Text.wrap (Text.i64Max + 1)).1 = Text.i64Min := by decide
  have hmin : max (min Text.i64Min n) 0 = 0 := by
    rw [Text.i64Min]
    omega
  rw [Text.window, if_neg hpos, hwrap, hmin]
  rfl

/-- The slice that is taken. -/
theorem take_drop_eq_window {n : ℕ} {p : ℕ × ℕ} (hlen : l.length = n)
    (hfst : p.1 = (first n start).toNat) (hsnd : p.2 = (last n stop + 1).toNat) :
    (if p.2 ≤ p.1 then [] else (l.drop p.1).take (p.2 - p.1)) = window l start stop := by
  have hnonneg := first_nonneg n start
  rw [window, hlen]
  split
  · rw [between_eq_nil (by omega)]
  · rw [between_eq hnonneg, hfst, hsnd]
    congr 1
    omega

end Window
