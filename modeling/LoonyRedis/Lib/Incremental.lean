import Mathlib.Data.List.Basic

/-!
# Parsers for input that arrives in pieces

A parser reads from the front of a list and returns what remains. It may stop because the
input ends too early, which more input can mend, or because the input is invalid. A parser
is `Stable` if what it has decided stays decided when more input follows, it
`Consumes n` if it takes at least `n` elements whenever it succeeds, and it is `Local` if what
it takes is all that its result depends on.

`drain` applies a parser as often as it goes. For a stable parser that consumes something,
the pieces in which the input arrives do not matter (`drain_append_of_incomplete`), up to
the first invalid part.
-/

/-- Why a parser stops without a result. -/
inductive Stop (ε : Type*) where
  | incomplete
  | invalid (e : ε)
  /-- The calls were nested deeper than allowed. -/
  | tooDeep

/-- A parser of lists over `τ`. -/
abbrev Parser (τ ε α : Type) := StateT (List τ) (Except (Stop ε)) α

namespace Parser

variable {τ ε α β : Type}

/-- What was decided stays decided. -/
structure Stable (p : Parser τ ε α) : Prop where
  ok : ∀ {b a r}, p b = .ok (a, r) → ∀ x, p (b ++ x) = .ok (a, r ++ x)
  invalid : ∀ {b e}, p b = .error (.invalid e) → ∀ x, p (b ++ x) = .error (.invalid e)

/-- A result takes at least `n` elements from the front. -/
def Consumes (n : ℕ) (p : Parser τ ε α) : Prop :=
  ∀ b a r, p b = .ok (a, r) → ∃ c, b = c ++ r ∧ n ≤ c.length

/-- The bound on the depth is not reached on inputs that are shorter than `n`. -/
def Shallow (n : ℕ) (p : Parser τ ε α) : Prop := ∀ b, b.length < n → p b ≠ .error .tooDeep

/-- A result depends on what was taken alone, whatever remains. -/
def Local (p : Parser τ ε α) : Prop :=
  ∀ b a r, p b = .ok (a, r) → ∃ c, b = c ++ r ∧ ∀ x, p (c ++ x) = .ok (a, x)

/-- Apply a parser `n` times. -/
def times (p : Parser τ ε α) : ℕ → Parser τ ε (List α)
  | 0 => pure []
  | n + 1 => do
    let a ← p
    let as ← times p n
    return a :: as

section Bind

variable {p : Parser τ ε α} {f : α → Parser τ ε β} {b : List τ}

theorem bind_eq (p : Parser τ ε α) (f : α → Parser τ ε β) (b : List τ) :
    (p >>= f) b = match p b with
      | .ok (a, r) => f a r
      | .error e => .error e := by
  change (p b >>= fun x => f x.1 x.2) = _
  cases p b <;> rfl

theorem bind_ok {a : α} {r : List τ} (h : p b = .ok (a, r)) : (p >>= f) b = f a r := by
  rw [bind_eq, h]

theorem bind_error {e : Stop ε} (h : p b = .error e) : (p >>= f) b = .error e := by
  rw [bind_eq, h]

/-- A sequence has a result if both parts have one. -/
theorem bind_eq_ok {c : β} {r : List τ} :
    (p >>= f) b = .ok (c, r) ↔ ∃ a r', p b = .ok (a, r') ∧ f a r' = .ok (c, r) := by
  rw [bind_eq]
  cases h : p b with
  | error e => simp
  | ok x =>
    obtain ⟨a, r'⟩ := x
    constructor
    · intro hf
      exact ⟨a, r', rfl, hf⟩
    · rintro ⟨a', r'', heq, hf⟩
      obtain ⟨rfl, rfl⟩ := Prod.mk.inj (Except.ok.inj heq)
      exact hf

/-- A sequence stops in one of its parts. -/
theorem bind_eq_error {e : Stop ε} : (p >>= f) b = .error e ↔
    p b = .error e ∨ ∃ a r, p b = .ok (a, r) ∧ f a r = .error e := by
  rw [bind_eq]
  cases h : p b with
  | error e' => simp
  | ok x =>
    obtain ⟨a, r⟩ := x
    constructor
    · intro hf
      exact .inr ⟨a, r, rfl, hf⟩
    · rintro (heq | ⟨a', r', heq, hf⟩)
      · cases heq
      · obtain ⟨rfl, rfl⟩ := Prod.mk.inj (Except.ok.inj heq)
        exact hf

end Bind

/-- The results of `times` are results of the parser. -/
theorem of_times_eq_ok {p : Parser τ ε α} : ∀ {n : ℕ} {b r : List τ} {as : List α},
    times p n b = .ok (as, r) → as.length = n ∧ ∀ a ∈ as, ∃ b' r', p b' = .ok (a, r')
  | 0, b, r, as, h => by
    obtain ⟨rfl, -⟩ := Prod.mk.inj (Except.ok.inj h)
    exact ⟨rfl, by simp⟩
  | n + 1, b, r, as, h => by
    obtain ⟨a, r₁, ha, hrest⟩ := bind_eq_ok.mp h
    obtain ⟨as', r₂, htimes, hpure⟩ := bind_eq_ok.mp hrest
    obtain ⟨rfl, -⟩ := Prod.mk.inj (Except.ok.inj hpure)
    obtain ⟨hlen, hall⟩ := of_times_eq_ok htimes
    refine ⟨by rw [List.length_cons, hlen], fun x hx => ?_⟩
    rcases List.mem_cons.mp hx with rfl | hx
    · exact ⟨b, r₁, ha⟩
    · exact hall x hx

/-- If it is decided how `times` ends, each of its applications that is reached later on is
reached now, and decided. -/
theorem Stable.of_times_append {p : Parser τ ε α} (hp : Stable p)
    (hd : ∀ b, p b ≠ .error .tooDeep) {x : List τ} : ∀ {k n : ℕ} {b r : List τ} {as : List α},
      k < n → times p n b ≠ .error .incomplete → times p k (b ++ x) = .ok (as, r) →
        ∃ r', times p k b = .ok (as, r') ∧ r = r' ++ x ∧ p r' ≠ .error .incomplete
  | 0, n + 1, b, r, as, _, hn, hk => by
    obtain ⟨rfl, rfl⟩ := Prod.mk.inj (Except.ok.inj hk)
    exact ⟨b, rfl, rfl, fun h => hn (bind_error h)⟩
  | k + 1, n + 1, b, r, as, hlt, hn, hk => by
    obtain ⟨a, r₁, ha, hrest⟩ := bind_eq_ok.mp hk
    obtain ⟨as', r₂, htimes, hpure⟩ := bind_eq_ok.mp hrest
    obtain ⟨rfl, rfl⟩ := Prod.mk.inj (Except.ok.inj hpure)
    cases hb : p b with
    | error e =>
      cases e with
      | incomplete => exact absurd (bind_error hb) hn
      | invalid e =>
        rw [hp.invalid hb x] at ha
        cases ha
      | tooDeep => exact absurd hb (hd b)
    | ok y =>
      obtain ⟨a', r'⟩ := y
      rw [hp.ok hb x] at ha
      obtain ⟨rfl, rfl⟩ := Prod.mk.inj (Except.ok.inj ha)
      have hn' : times p n r' ≠ .error .incomplete := by
        intro h
        refine hn ?_
        rw [times, bind_ok hb, bind_error h]
      obtain ⟨r₀, hr₀, rfl, hdecided⟩ := hp.of_times_append hd (by omega) hn' htimes
      refine ⟨r₀, ?_, rfl, hdecided⟩
      rw [times, bind_ok hb, bind_ok hr₀]
      rfl

/-- What is read to its end is not read from a part of it. -/
theorem Stable.incomplete_of_append {p : Parser τ ε α} (hp : Stable p) {b x : List τ} {a : α}
    (hread : p (b ++ x) = .ok (a, [])) (hx : x ≠ []) (hdeep : p b ≠ .error .tooDeep) :
    p b = .error .incomplete := by
  cases hb : p b with
  | ok y =>
    obtain ⟨a', r⟩ := y
    have hmore := hp.ok hb x
    rw [hread, Except.ok.injEq, Prod.mk.injEq] at hmore
    exact absurd (List.append_eq_nil_iff.mp hmore.2.symm).2 hx
  | error e =>
    cases e with
    | incomplete => rfl
    | invalid e =>
      rw [hp.invalid hb x] at hread
      cases hread
    | tooDeep => exact absurd hb hdeep

/-! ## How the properties compose -/

section Compose

variable {p : Parser τ ε α} {f : α → Parser τ ε β}

theorem stable_pure (a : α) : Stable (pure a : Parser τ ε α) where
  ok h x := by
    obtain ⟨rfl, rfl⟩ := Prod.mk.inj (Except.ok.inj h)
    rfl
  invalid h := nomatch h

/-- A sequence of stable parsers is stable. -/
theorem stable_bind (hp : Stable p) (hf : ∀ a, Stable (f a)) : Stable (p >>= f) where
  ok h x := by
    obtain ⟨a, r, hpb, hfb⟩ := bind_eq_ok.mp h
    rw [bind_ok (hp.ok hpb x)]
    exact (hf a).ok hfb x
  invalid h x := by
    rcases bind_eq_error.mp h with hpb | ⟨a, r, hpb, hfb⟩
    · rw [bind_error (hp.invalid hpb x)]
    · rw [bind_ok (hp.ok hpb x)]
      exact (hf a).invalid hfb x

theorem stable_throw (e : Stop ε) : Stable (throw e : Parser τ ε α) where
  ok h := nomatch h
  invalid h _ := h

/-- A repeated stable parser is stable. -/
theorem stable_times (hp : Stable p) : ∀ n, Stable (times p n)
  | 0 => stable_pure []
  | n + 1 => stable_bind hp fun _ => stable_bind (stable_times hp n) fun _ => stable_pure _

theorem consumes_pure (a : α) : Consumes 0 (pure a : Parser τ ε α) := by
  intro b a' r h
  obtain ⟨-, rfl⟩ := Prod.mk.inj (Except.ok.inj h)
  exact ⟨[], rfl, Nat.zero_le _⟩

/-- A sequence consumes what its first part does. -/
theorem consumes_bind {n : ℕ} (hp : Consumes n p) (hf : ∀ a, Consumes 0 (f a)) :
    Consumes n (p >>= f) := by
  intro b c r h
  obtain ⟨a, r', hpb, hfb⟩ := bind_eq_ok.mp h
  obtain ⟨u, rfl, hu⟩ := hp _ _ _ hpb
  obtain ⟨v, rfl, -⟩ := hf a _ _ _ hfb
  exact ⟨u ++ v, (List.append_assoc ..).symm, by rw [List.length_append]; omega⟩

theorem consumes_throw (n : ℕ) (e : Stop ε) : Consumes n (throw e : Parser τ ε α) :=
  fun _ _ _ h => nomatch h

/-- Whoever consumes `n` consumes less. -/
theorem Consumes.mono {m n : ℕ} (hp : Consumes n p) (h : m ≤ n) : Consumes m p := by
  intro b a r hpb
  obtain ⟨c, hc, hn⟩ := hp _ _ _ hpb
  exact ⟨c, hc, Nat.le_trans h hn⟩

/-- A repetition may consume nothing. -/
theorem consumes_times (hp : Consumes 0 p) : ∀ n, Consumes 0 (times p n)
  | 0 => consumes_pure []
  | n + 1 => consumes_bind hp fun _ => consumes_bind (consumes_times hp n) fun _ => consumes_pure _

theorem local_pure (a : α) : Local (pure a : Parser τ ε α) := by
  intro b a' r h
  obtain ⟨rfl, rfl⟩ := Prod.mk.inj (Except.ok.inj h)
  exact ⟨[], rfl, fun _ => rfl⟩

/-- What the second parser takes follows what the first one takes. -/
theorem local_bind (hp : Local p) (hf : ∀ a, Local (f a)) : Local (p >>= f) := by
  intro b c r h
  obtain ⟨a, r', hpb, hfb⟩ := bind_eq_ok.mp h
  obtain ⟨u, rfl, hu⟩ := hp _ _ _ hpb
  obtain ⟨v, rfl, hv⟩ := hf a _ _ _ hfb
  refine ⟨u ++ v, (List.append_assoc ..).symm, fun x => ?_⟩
  rw [List.append_assoc, bind_ok (hu (v ++ x)), hv x]

theorem local_throw (e : Stop ε) : Local (throw e : Parser τ ε α) := fun _ _ _ h => nomatch h

/-- A repeated local parser is local. -/
theorem local_times (hp : Local p) : ∀ n, Local (times p n)
  | 0 => local_pure []
  | n + 1 => local_bind hp fun _ => local_bind (local_times hp n) fun _ => local_pure _

theorem shallow_pure (n : ℕ) (a : α) : Shallow n (pure a : Parser τ ε α) := fun _ _ h => nomatch h

theorem shallow_throw (n : ℕ) {e : Stop ε} (h : e ≠ .tooDeep) :
    Shallow n (throw e : Parser τ ε α) :=
  fun _ _ heq => h (Except.error.inj heq)

theorem Shallow.mono {m n : ℕ} (hp : Shallow n p) (h : m ≤ n) : Shallow m p :=
  fun b hb => hp b (Nat.lt_of_lt_of_le hb h)

/-- The second parser sees an input that is shorter by what the first one took. -/
theorem shallow_bind {m n : ℕ} (hm : Consumes m p) (hp : Shallow n p)
    (hf : ∀ a, Shallow (n - m) (f a)) : Shallow n (p >>= f) := by
  intro b hb h
  rcases bind_eq_error.mp h with hpb | ⟨a, r, hpb, hfb⟩
  · exact hp b hb hpb
  · obtain ⟨c, rfl, hc⟩ := hm _ _ _ hpb
    rw [List.length_append] at hb
    exact hf a r (by omega) hfb

/-- A repeated shallow parser is shallow, as its inputs get no longer. -/
theorem shallow_times {n : ℕ} (hm : Consumes 0 p) (hp : Shallow n p) : ∀ k, Shallow n (times p k)
  | 0 => shallow_pure n []
  | k + 1 => shallow_bind hm hp fun _ =>
    shallow_bind (consumes_times hm k) (shallow_times hm hp k) fun _ => shallow_pure _ _

end Compose

/-! ## Deeper parsers -/

/-- The parser `q` does what `p` does, where `p` is not too deep. -/
def Refines (p q : Parser τ ε α) : Prop := ∀ b, p b ≠ .error .tooDeep → q b = p b

section Refines

variable {p q : Parser τ ε α} {f g : α → Parser τ ε β}

theorem refines_refl (p : Parser τ ε α) : Refines p p := fun _ _ => rfl

/-- A sequence is refined part by part. -/
theorem refines_bind (hp : Refines p q) (hf : ∀ a, Refines (f a) (g a)) :
    Refines (p >>= f) (q >>= g) := by
  intro b hb
  cases h : p b with
  | error e =>
    have hne : p b ≠ .error .tooDeep := by
      intro heq
      exact hb (bind_error heq)
    rw [bind_error h, bind_error ((hp b hne).trans h)]
  | ok x =>
    obtain ⟨a, r⟩ := x
    have hq : q b = .ok (a, r) := (hp b (by rw [h]; exact fun heq => nomatch heq)).trans h
    rw [bind_ok h] at hb ⊢
    rw [bind_ok hq]
    exact hf a r hb

/-- A repetition is refined by that of the finer parser. -/
theorem refines_times (hp : Refines p q) : ∀ n, Refines (times p n) (times q n)
  | 0 => refines_refl _
  | n + 1 => refines_bind hp fun _ => refines_bind (refines_times hp n) fun _ => refines_refl _

end Refines

/-! ## Applying a parser again and again -/

/-- How `drain` ends : on input that is incomplete, or invalid. -/
inductive Rest (τ ε : Type) where
  | incomplete (b : List τ)
  | invalid (e : ε)

/-- Parse as often as possible, at most `fuel` times. -/
def drainLoop (p : Parser τ ε α) : ℕ → List τ → List α × Rest τ ε
  | 0, b => ([], .incomplete b)
  | fuel + 1, b =>
    match p b with
    | .ok (a, r) => (a :: (drainLoop p fuel r).1, (drainLoop p fuel r).2)
    | .error (.invalid e) => ([], .invalid e)
    | .error _ => ([], .incomplete b)

/-- Parse as often as possible. -/
def drain (p : Parser τ ε α) (b : List τ) : List α × Rest τ ε := drainLoop p (b.length + 1) b

section Drain

variable {p : Parser τ ε α} {b r : List τ} {a : α}

/-- The fuel does not matter if it exceeds the length. -/
theorem drainLoop_eq (hp : Consumes 1 p) : ∀ {m n : ℕ} {b : List τ}, b.length < m → b.length < n →
    drainLoop p m b = drainLoop p n b
  | m + 1, n + 1, b, hm, hn => by
    rw [drainLoop, drainLoop]
    cases h : p b with
    | error e => cases e <;> rfl
    | ok x =>
      obtain ⟨a, r⟩ := x
      obtain ⟨c, rfl, hc⟩ := hp _ _ _ h
      rw [List.length_append] at hm hn
      have heq : drainLoop p m r = drainLoop p n r := drainLoop_eq hp (by omega) (by omega)
      simp only [heq]

/-- The first value, and those of what is left. -/
theorem drain_ok (hp : Consumes 1 p) (h : p b = .ok (a, r)) :
    drain p b = (a :: (drain p r).1, (drain p r).2) := by
  obtain ⟨c, rfl, hc⟩ := hp _ _ _ h
  have heq : drainLoop p (c ++ r).length r = drainLoop p (r.length + 1) r :=
    drainLoop_eq hp (by rw [List.length_append]; omega) (Nat.lt_succ_self _)
  rw [drain, drainLoop, h, drain]
  simp only [heq]

/-- Invalid input ends the values. -/
theorem drain_invalid {e : ε} (h : p b = .error (.invalid e)) : drain p b = ([], .invalid e) := by
  rw [drain, drainLoop, h]

/-- Incomplete input ends the values. -/
theorem drain_incomplete (h : p b = .error .incomplete) : drain p b = ([], .incomplete b) := by
  rw [drain, drainLoop, h]

/-- The cases of `drain` : its induction principle. -/
theorem drain_induction (hp : Consumes 1 p) {motive : List τ → Prop}
    (ok : ∀ b a r, p b = .ok (a, r) → motive r → motive b)
    (stop : ∀ b e, p b = .error e → motive b) (b : List τ) : motive b := by
  induction hn : b.length using Nat.strongRecOn generalizing b with
  | _ n ih =>
    cases h : p b with
    | error e => exact stop b e h
    | ok x =>
      obtain ⟨a, r⟩ := x
      obtain ⟨c, rfl, hc⟩ := hp _ _ _ h
      rw [List.length_append] at hn
      exact ok _ a r h (ih r.length (by omega) r rfl)

/-- Whatever is drained was parsed. -/
theorem of_mem_drain (hp : Consumes 1 p) (h : a ∈ (drain p b).1) : ∃ b' r', p b' = .ok (a, r') := by
  induction b using drain_induction hp with
  | ok b a' r hok ih =>
    rw [drain_ok hp hok, List.mem_cons] at h
    rcases h with rfl | h
    · exact ⟨b, r, hok⟩
    · exact ih h
  | stop b e herr =>
    rw [drain, drainLoop, herr] at h
    cases e <;> cases h

variable (hc : Consumes 1 p) (hd : ∀ b, p b ≠ .error .tooDeep)
include hc hd

/-- What is left of an incomplete end is the end of the input, and incomplete. -/
theorem drain_rest : ∀ {as : List α} {r : List τ}, drain p b = (as, .incomplete r) →
    (∃ c, b = c ++ r) ∧ p r = .error .incomplete := by
  induction b using drain_induction hc with
  | ok b a r₀ h ih =>
    intro as r hb
    rw [drain_ok hc h] at hb
    obtain ⟨-, hrest⟩ := Prod.mk.inj hb
    obtain ⟨⟨c, rfl⟩, hr⟩ := ih (Prod.ext rfl hrest)
    obtain ⟨d, rfl, -⟩ := hc _ _ _ h
    exact ⟨⟨d ++ c, (List.append_assoc ..).symm⟩, hr⟩
  | stop b e h =>
    intro as r hb
    cases e with
    | incomplete =>
      rw [drain_incomplete h] at hb
      obtain rfl := Rest.incomplete.inj (Prod.mk.inj hb).2
      exact ⟨⟨[], rfl⟩, h⟩
    | invalid e =>
      rw [drain_invalid h] at hb
      cases hb
    | tooDeep => exact absurd h (hd b)

variable (hs : Stable p)
include hs

omit hc in
/-- Nothing is decided about the beginning of an incomplete input. -/
theorem incomplete_of_append {x : List τ} (h : p (b ++ x) = .error .incomplete) :
    p b = .error .incomplete := by
  cases hb : p b with
  | ok y =>
    rw [hs.ok (r := y.2) (a := y.1) hb x] at h
    cases h
  | error e =>
    cases e with
    | incomplete => rfl
    | invalid e =>
      rw [hs.invalid hb x] at h
      cases h
    | tooDeep => exact absurd hb (hd b)

/-- More input after an incomplete end is parsed with what was left. -/
theorem drain_append_of_incomplete (x : List τ) : ∀ {as : List α} {r : List τ},
    drain p b = (as, .incomplete r) → drain p (b ++ x) = (as ++ (drain p (r ++ x)).1,
      (drain p (r ++ x)).2) := by
  induction b using drain_induction hc with
  | ok b a r₀ h ih =>
    intro as r hb
    rw [drain_ok hc h] at hb
    obtain ⟨rfl, hrest⟩ := Prod.mk.inj hb
    rw [drain_ok hc (hs.ok h x), ih (Prod.ext rfl hrest)]
    rfl
  | stop b e h =>
    intro as r hb
    cases e with
    | incomplete =>
      rw [drain_incomplete h] at hb
      obtain ⟨rfl, hrest⟩ := Prod.mk.inj hb
      obtain rfl := Rest.incomplete.inj hrest
      rfl
    | invalid e =>
      rw [drain_invalid h] at hb
      cases hb
    | tooDeep => exact absurd h (hd b)

/-- An invalid part stays where it is. -/
theorem drain_append_of_invalid (x : List τ) {e : ε} : ∀ {as : List α},
    drain p b = (as, .invalid e) → drain p (b ++ x) = (as, .invalid e) := by
  induction b using drain_induction hc with
  | ok b a r₀ h ih =>
    intro as hb
    rw [drain_ok hc h] at hb
    obtain ⟨rfl, hrest⟩ := Prod.mk.inj hb
    rw [drain_ok hc (hs.ok h x), ih (Prod.ext rfl hrest)]
  | stop b e' h =>
    intro as hb
    cases e' with
    | incomplete =>
      rw [drain_incomplete h] at hb
      cases hb
    | invalid e' =>
      rw [drain_invalid h] at hb
      obtain ⟨rfl, hrest⟩ := Prod.mk.inj hb
      obtain rfl := Rest.invalid.inj hrest
      exact drain_invalid (hs.invalid h x)
    | tooDeep => exact absurd h (hd b)

/-- From a part of what was written, the results that are in it whole are read. -/
theorem drain_part {write : α → List τ} (hnil : p [] = .error .incomplete) {x : List τ} :
    ∀ {as : List α} {b : List τ}, (∀ a ∈ as, ∀ y, p (write a ++ y) = .ok (a, y)) →
      b ++ x = as.flatMap write → ∃ as₁ as₂ r, as = as₁ ++ as₂ ∧
        drain p b = (as₁, .incomplete r) ∧ r ++ x = as₂.flatMap write
  | [], b, _, h => by
    obtain ⟨rfl, rfl⟩ := List.append_eq_nil_iff.mp h
    exact ⟨[], [], [], rfl, drain_incomplete hnil, rfl⟩
  | a :: as, b, hread, h => by
    rw [List.forall_mem_cons] at hread
    rw [List.flatMap_cons] at h
    -- Whether the first is in it.
    have hwhole (c : List τ) (hb : b = write a ++ c) (hc' : c ++ x = as.flatMap write) :
        ∃ as₁ as₂ r, a :: as = as₁ ++ as₂ ∧ drain p b = (as₁, .incomplete r) ∧
          r ++ x = as₂.flatMap write := by
      obtain ⟨as₁, as₂, r, rfl, hdrain, hr⟩ := drain_part hnil hread.2 hc'
      refine ⟨a :: as₁, as₂, r, rfl, ?_, hr⟩
      rw [hb, drain_ok hc (hread.1 c), hdrain]
    rcases List.append_eq_append_iff.mp h with ⟨c, hb, hx⟩ | ⟨c, hb, hc'⟩
    · by_cases hne : c = []
      · rw [hne, List.append_nil] at hb
        rw [hne, List.nil_append] at hx
        exact hwhole [] (by rw [hb, List.append_nil]) hx
      · have hpart := hread.1 []
        rw [List.append_nil, hb] at hpart
        refine ⟨[], a :: as, b, rfl, ?_, h⟩
        exact drain_incomplete (hs.incomplete_of_append hpart hne (hd b))
    · exact hwhole c hb hc'.symm

end Drain

end Parser
