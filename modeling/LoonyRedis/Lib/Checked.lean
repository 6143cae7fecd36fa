import Mathlib.Algebra.Group.Nat.Defs
import Mathlib.Algebra.Ring.Int.Defs
import Mathlib.Tactic.ByContra

/-!
# Operations that may panic

A computation that may panic is an `Option`, and `none` is a panic : a number that leaves its
range, a slice that is out of bounds, an allocation that no machine has room for.

`Returns x P y` says that the computation `x` returns `y` if `P` holds, and panics if it does
not. The lemmas say how this composes, so that the condition under which a function returns is
collected along its text.
-/

namespace Checked

variable {α β : Type}

/-! ## Operations -/

/-- The result of an operation on signed numbers of 64 bits. -/
def i64 (x : ℤ) : Option ℤ := if -2 ^ 63 ≤ x ∧ x < 2 ^ 63 then some x else none

/-- The result of an operation on unsigned numbers of `w` bits. -/
def unsigned (w : ℕ) (x : ℤ) : Option ℕ := if 0 ≤ x ∧ x < 2 ^ w then some x.toNat else none

/-- The slice from `start` on. -/
def sliceFrom (l : List α) (start : ℕ) : Option (List α) :=
  if start ≤ l.length then some (l.drop start) else none

/-- The slice up to `stop`. -/
def sliceTo (l : List α) (stop : ℕ) : Option (List α) :=
  if stop ≤ l.length then some (l.take stop) else none

/-- Room for `n` values of `size` bytes. No allocation is of more than `isize::MAX` bytes. -/
def room (size n : ℕ) : Option Unit := if n * size < 2 ^ 63 then some () else none

/-! ## When a computation returns -/

/-- The computation `x` returns `y` if `P`, and panics otherwise. -/
structure Returns (x : Option α) (P : Prop) (y : α) : Prop where
  ok : P → x = some y
  panics : ¬ P → x = none

namespace Returns

variable {x : Option α} {P Q : Prop} {y : α} {z : β}

/-- A value that is there always returns. -/
theorem of_eq (h : x = some y) : Returns x True y := ⟨fun _ => h, fun hn => absurd trivial hn⟩

/-- A checked computation returns if and only if its condition holds. -/
theorem isSome_iff (h : Returns x P y) : x.isSome = true ↔ P := by
  constructor
  · intro hsome
    by_contra hP
    rw [h.panics hP] at hsome
    cases hsome
  · intro hP
    rw [h.ok hP]
    rfl

/-- The condition may be replaced by an equivalent one. -/
theorem congr (h : Returns x P y) (hPQ : P ↔ Q) : Returns x Q y := by
  rw [← hPQ]
  exact h

/-- A total function after it does not change when it returns. -/
theorem map (h : Returns x P y) (f : α → β) : Returns (x.map f) P (f y) := by
  refine ⟨fun hP => ?_, fun hP => ?_⟩
  · rw [h.ok hP]
    rfl
  · rw [h.panics hP]
    rfl

/-- The second computation is only run if the first returns. -/
theorem bind (h : Returns x P y) {f : α → Option β} (hf : P → Returns (f y) Q z) :
    Returns (x >>= f) (P ∧ Q) z := by
  refine ⟨fun hPQ => ?_, fun hPQ => ?_⟩
  · rw [h.ok hPQ.1]
    exact (hf hPQ.1).ok hPQ.2
  · by_cases hP : P
    · rw [h.ok hP]
      exact (hf hP).panics fun hQ => hPQ ⟨hP, hQ⟩
    · rw [h.panics hP]
      rfl

/-- A second computation that always returns. -/
theorem bind_some (h : Returns x P y) {f : α → Option β} (hf : f y = some z) :
    Returns (x >>= f) P z :=
  (h.bind fun _ => .of_eq hf).congr (and_iff_left trivial)

/-- A first computation that always returns. -/
theorem bind_eq (hx : x = some y) {f : α → Option β} (hf : Returns (f y) Q z) :
    Returns (x >>= f) Q z := by
  rw [hx]
  exact hf

/-- A branch returns when the branch taken does. -/
theorem ite {c : Prop} [Decidable c] {x' : Option α} {y' : α} (h : c → Returns x P y)
    (h' : ¬ c → Returns x' Q y') :
    Returns (if c then x else x') (if c then P else Q) (if c then y else y') := by
  split
  · next hc => exact h hc
  · next hc => exact h' hc

end Returns

/-- A test returns when it holds. -/
theorem returns_if {P : Prop} [Decidable P] {y : α} : Returns (if P then some y else none) P y :=
  ⟨fun h => if_pos h, fun h => if_neg h⟩

/-- A number is an `i64` when it is in its range. -/
theorem returns_i64 (x : ℤ) : Returns (i64 x) (-2 ^ 63 ≤ x ∧ x < 2 ^ 63) x := returns_if

/-- There is room up to `isize::MAX` bytes. -/
theorem returns_room (size n : ℕ) : Returns (room size n) (n * size < 2 ^ 63) () := returns_if

theorem i64_eq {x : ℤ} (h : -2 ^ 63 ≤ x) (h' : x < 2 ^ 63) : i64 x = some x := if_pos ⟨h, h'⟩

theorem unsigned_eq {w : ℕ} {x : ℤ} (h : 0 ≤ x) (h' : x < 2 ^ w) : unsigned w x = some x.toNat :=
  if_pos ⟨h, h'⟩

/-- A slice from a place within the list does not panic. -/
theorem sliceFrom_eq {l : List α} {start : ℕ} (h : start ≤ l.length) :
    sliceFrom l start = some (l.drop start) := if_pos h

/-- A slice up to a place within the list does not panic. -/
theorem sliceTo_eq {l : List α} {stop : ℕ} (h : stop ≤ l.length) :
    sliceTo l stop = some (l.take stop) := if_pos h

theorem room_eq {size n : ℕ} (h : n * size < 2 ^ 63) : room size n = some () := if_pos h

/-! ## Loops that return at each element -/

/-- A map whose function never panics is the plain map. -/
theorem mapM_eq {f : α → Option β} {g : α → β} : ∀ {l : List α},
    (∀ a ∈ l, f a = some (g a)) → l.mapM f = some (l.map g)
  | [], _ => rfl
  | a :: l, h => by
    have ih : l.mapM f = some (l.map g) := mapM_eq fun b hb => h b (List.mem_cons_of_mem a hb)
    rw [List.mapM_cons, h a List.mem_cons_self, ih]
    rfl

/-- The loop of `filter`, whose test may panic. -/
def filterLoop (p : α → Option Bool) : List α → Option (List α)
  | [] => some []
  | a :: l => do
    let keep ← p a
    let rest ← filterLoop p l
    return if keep then a :: rest else rest

/-- A filter whose test never panics is the plain filter. -/
theorem filterLoop_eq {p : α → Option Bool} {q : α → Bool} : ∀ {l : List α},
    (∀ a ∈ l, p a = some (q a)) → filterLoop p l = some (l.filter q)
  | [], _ => rfl
  | a :: l, h => by
    have ih : filterLoop p l = some (l.filter q) :=
      filterLoop_eq fun b hb => h b (List.mem_cons_of_mem a hb)
    rw [filterLoop, h a List.mem_cons_self, ih, List.filter_cons]
    rfl

end Checked
