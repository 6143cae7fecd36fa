import LoonyRedis.Lib.Incremental
import Mathlib.Algebra.Group.Nat.Defs
import Mathlib.Algebra.Ring.Int.Defs

/-!
# Readers with a cursor

A reader walks over a buffer with a position, and panics where it looks or moves out of the
buffer, or where an unsigned number leaves its range. `Follows data p q safe` says what the
reader `p` does at every position of the buffer `data`, in terms of a parser `q` of what
remains there : where `safe` holds of the rest, `p` finds what `q` finds and ends at the
position of what `q` leaves; where it does not, `p` panics. The lemmas say how this
composes, so that the conditions under which a reader is safe are collected along its text.
-/

/-- Why a reader ends without a result : as a parser does, or by a panic. -/
inductive Halt (ε : Type*) where
  | stop (s : Stop ε)
  | panicked

/-- A reader with a position in a buffer. -/
abbrev Reader (ε α : Type) := StateT ℕ (Except (Halt ε)) α

namespace Reader

variable {τ ε α β : Type}

/-! ## Checked operations -/

/-- End by a panic. -/
def panicked : Reader ε α := throw .panicked

/-- End as a parser does. -/
def stop (s : Stop ε) : Reader ε α := throw (.stop s)

/-- Where the reader stands. -/
def position : Reader ε ℕ := get

/-- Go to a position, also past the end of the buffer. -/
def setPosition (pos : ℕ) : Reader ε Unit := set pos

/-- What is left of the buffer, nothing past its end. -/
def chunk (data : List τ) : Reader ε (List τ) := do return data.drop (← position)

/-- The length of what is left, 0 past the end. -/
def remaining (data : List τ) : Reader ε ℕ := do return data.length - (← position)

/-- Move on by `n`, inside the buffer. -/
def advance (data : List τ) (n : ℕ) : Reader ε Unit := do
  let pos ← position
  if pos + n ≤ data.length then setPosition (pos + n) else panicked

/-- The element at an index in range. -/
def index (l : List τ) (i : ℕ) : Reader ε τ := (l[i]?).elim panicked pure

/-- The slice up to `n`, if it is in range. -/
def sliceTo (l : List τ) (n : ℕ) : Reader ε (List τ) :=
  if n ≤ l.length then pure (l.take n) else panicked

/-- The slice from `n` on, if it is in range. -/
def sliceFrom (l : List τ) (n : ℕ) : Reader ε (List τ) :=
  if n ≤ l.length then pure (l.drop n) else panicked

/-- A sum of 64-bit unsigned numbers that does not overflow. -/
def addChecked (x y : ℕ) : Reader ε ℕ := if x + y < 2 ^ 64 then pure (x + y) else panicked

/-- A difference of unsigned numbers that is not negative. -/
def subChecked (x y : ℕ) : Reader ε ℕ := if y ≤ x then pure (x - y) else panicked

/-- Apply a reader `n` times. -/
def times (p : Reader ε α) : ℕ → Reader ε (List α)
  | 0 => pure []
  | n + 1 => do
    let a ← p
    let as ← times p n
    return a :: as

section Bind

variable {p : Reader ε α} {f : α → Reader ε β} {pos : ℕ}

theorem bind_ok {a : α} {pos' : ℕ} (h : p pos = .ok (a, pos')) : (p >>= f) pos = f a pos' := by
  change (p pos >>= fun x => f x.1 x.2) = _
  rw [h]
  rfl

theorem bind_error {e : Halt ε} (h : p pos = .error e) : (p >>= f) pos = .error e := by
  change (p pos >>= fun x => f x.1 x.2) = _
  rw [h]
  rfl

end Bind

theorem index_eq {l : List τ} {i : ℕ} {x : τ} (h : l[i]? = some x) :
    (index l i : Reader ε τ) = pure x := by
  rw [index, h]
  rfl

theorem sliceTo_eq {l : List τ} {n : ℕ} (h : n ≤ l.length) :
    (sliceTo l n : Reader ε (List τ)) = pure (l.take n) := if_pos h

theorem sliceFrom_eq {l : List τ} {n : ℕ} (h : n ≤ l.length) :
    (sliceFrom l n : Reader ε (List τ)) = pure (l.drop n) := if_pos h

theorem addChecked_eq {x y : ℕ} (h : x + y < 2 ^ 64) :
    (addChecked x y : Reader ε ℕ) = pure (x + y) := if_pos h

theorem subChecked_eq {x y : ℕ} (h : y ≤ x) : (subChecked x y : Reader ε ℕ) = pure (x - y) :=
  if_pos h

theorem advance_eq {data : List τ} {n pos : ℕ} (h : pos + n ≤ data.length) :
    (advance data n : Reader ε Unit) pos = .ok ((), pos + n) := by
  have hbind : (advance data n : Reader ε Unit) pos =
      (if pos + n ≤ data.length then setPosition (pos + n) else panicked : Reader ε Unit) pos :=
    rfl
  rw [hbind, if_pos h]
  rfl

/-! ## Readers against parsers -/

/-- The reader has ended as the parser did, at the position of what the parser leaves. -/
def EndsAs (data : List τ) (x : Except (Halt ε) (α × ℕ)) :
    Except (Stop ε) (α × List τ) → Prop
  | .ok (a, r) => ∃ pos, x = .ok (a, pos) ∧ pos ≤ data.length ∧ r = data.drop pos
  | .error s => x = .error (.stop s)

/-- The reader does what the parser does where that is safe, and panics where it is not. -/
structure Follows (data : List τ) (p : Reader ε α) (q : Parser τ ε α) (safe : List τ → Prop) :
    Prop where
  ends : ∀ pos ≤ data.length, safe (data.drop pos) → EndsAs data (p pos) (q (data.drop pos))
  panics : ∀ pos ≤ data.length, ¬ safe (data.drop pos) → p pos = .error .panicked

variable {data : List τ} {p : Reader ε α} {q : Parser τ ε α} {S : List τ → Prop}

theorem Follows.congr {S' : List τ → Prop} (h : Follows data p q S) (hiff : ∀ b, S b ↔ S' b) :
    Follows data p q S' where
  ends pos hpos hsafe := h.ends pos hpos ((hiff _).mpr hsafe)
  panics pos hpos hnot := h.panics pos hpos fun hsafe => hnot ((hiff _).mp hsafe)

/-- A reader that is safe everywhere. -/
theorem Follows.of_ends (h : ∀ pos ≤ data.length, EndsAs data (p pos) (q (data.drop pos))) :
    Follows data p q fun _ => True where
  ends pos hpos _ := h pos hpos
  panics _ _ hnot := absurd trivial hnot

theorem follows_pure (a : α) : Follows data (pure a : Reader ε α) (pure a) fun _ => True :=
  .of_ends fun pos hpos => ⟨pos, rfl, hpos, rfl⟩

theorem follows_stop (s : Stop ε) :
    Follows data (stop s : Reader ε α) (throw s) fun _ => True :=
  .of_ends fun _ _ => rfl

/-- One reader after another : safe if the first is, and the second at what the first
leaves. -/
theorem follows_bind {f : α → Reader ε β} {g : α → Parser τ ε β} {T : α → List τ → Prop}
    (hp : Follows data p q S) (hf : ∀ a, Follows data (f a) (g a) (T a)) :
    Follows data (p >>= f) (q >>= g) fun b => S b ∧ ∀ a r, q b = .ok (a, r) → T a r where
  ends pos hpos hsafe := by
    have hends := hp.ends pos hpos hsafe.1
    cases hq : q (data.drop pos) with
    | error s =>
      rw [hq] at hends
      rw [Parser.bind_error hq]
      exact bind_error hends
    | ok x =>
      obtain ⟨a, r⟩ := x
      rw [hq] at hends
      obtain ⟨pos', hp', hle, rfl⟩ := hends
      rw [Parser.bind_ok hq, bind_ok hp']
      exact (hf a).ends pos' hle (hsafe.2 a _ hq)
  panics pos hpos hnot := by
    by_cases hS : S (data.drop pos)
    · -- The second panics, after the first has ended with a result.
      obtain ⟨a, r, hq, hT⟩ : ∃ a r, q (data.drop pos) = .ok (a, r) ∧ ¬ T a r := by
        by_contra hno
        refine hnot ⟨hS, fun a r hq => ?_⟩
        by_contra hT
        exact hno ⟨a, r, hq, hT⟩
      have hends := hp.ends pos hpos hS
      rw [hq] at hends
      obtain ⟨pos', hp', hle, rfl⟩ := hends
      rw [bind_ok hp']
      exact (hf a).panics pos' hle hT
    · exact bind_error (hp.panics pos hpos hS)

/-- The same if the second is safe wherever it starts. -/
theorem follows_bind_of_safe {f : α → Reader ε β} {g : α → Parser τ ε β}
    (hp : Follows data p q S) (hf : ∀ a, Follows data (f a) (g a) fun _ => True) :
    Follows data (p >>= f) (q >>= g) S :=
  (follows_bind hp hf).congr fun b => by simp

/-- A repetition is safe if each repetition that is reached is. -/
theorem follows_times (hp : Follows data p q S) : ∀ n : ℕ,
    Follows data (times p n) (Parser.times q n) fun b =>
      ∀ k < n, ∀ as r, Parser.times q k b = .ok (as, r) → S r
  | 0 => (follows_pure []).congr fun b => by simp
  | n + 1 => by
    have hrest : ∀ a, Follows data (times p n >>= fun as => pure (a :: as))
        (Parser.times q n >>= fun as => pure (a :: as)) fun b =>
          ∀ k < n, ∀ as r, Parser.times q k b = .ok (as, r) → S r :=
      fun a => follows_bind_of_safe (follows_times hp n) fun as => follows_pure _
    refine (follows_bind hp hrest).congr fun b => ?_
    constructor
    · rintro ⟨hfirst, hthen⟩ k hk as r htimes
      cases k with
      | zero =>
        obtain ⟨-, rfl⟩ := Prod.mk.inj (Except.ok.inj htimes)
        exact hfirst
      | succ k =>
        obtain ⟨a, r₁, ha, hb⟩ := Parser.bind_eq_ok.mp htimes
        obtain ⟨as', r₂, htimes', hpure⟩ := Parser.bind_eq_ok.mp hb
        obtain ⟨-, rfl⟩ := Prod.mk.inj (Except.ok.inj hpure)
        exact hthen a r₁ ha k (Nat.lt_of_succ_lt_succ hk) as' r₂ htimes'
    · intro hall
      refine ⟨hall 0 (Nat.succ_pos n) [] b rfl, fun a r ha k hk as r' htimes => ?_⟩
      refine hall (k + 1) (Nat.succ_lt_succ hk) (a :: as) r' ?_
      refine Parser.bind_eq_ok.mpr ⟨a, r, ha, ?_⟩
      exact Parser.bind_eq_ok.mpr ⟨as, r', htimes, rfl⟩

end Reader
