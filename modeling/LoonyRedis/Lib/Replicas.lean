import Mathlib.Data.List.Infix

/-!
# Replicas of a state machine

A machine `next d s i` answers the input `i` in the state `s` and goes on to another state; `d`
is what it draws from its surroundings for that. `run` feeds it a list of inputs, with a draw
for each position.

Two machines agree if on related states they answer the same and stay related, whatever they
draw, for the inputs that meet a condition on the state (`Agrees`). A replica that has been fed
a part of the inputs of another one has then given the same answers to them, and is in a state
related to the one that the other was in (`run_isPrefix_agree`).
-/

namespace Replicas

variable {σ τ ι ρ δ : Type*}

/-- The answers to the inputs, from position `k` on, and the state afterwards. -/
def run (next : δ → σ → ι → ρ × σ) (draw : ℕ → δ) : ℕ → List ι → σ → List ρ × σ
  | _, [], s => ([], s)
  | k, i :: is, s =>
    let step := next (draw k) s i
    let rest := run next draw (k + 1) is step.2
    (step.1 :: rest.1, rest.2)

/-- Every input meets the condition in the state it finds. -/
def Along (ok : σ → ι → Prop) (next : δ → σ → ι → ρ × σ) (draw : ℕ → δ) : ℕ → List ι → σ → Prop
  | _, [], _ => True
  | k, i :: is, s => ok s i ∧ Along ok next draw (k + 1) is (next (draw k) s i).2

/-- On related states the machines answer the same and stay related. -/
def Agrees (R : σ → τ → Prop) (ok : σ → ι → Prop) (next : δ → σ → ι → ρ × σ)
    (next' : δ → τ → ι → ρ × τ) : Prop :=
  ∀ s t i d d', R s t → ok s i →
    (next d s i).1 = (next' d' t i).1 ∧ R (next d s i).2 (next' d' t i).2

variable {next : δ → σ → ι → ρ × σ} {next' : δ → τ → ι → ρ × τ} {draw draw' : ℕ → δ}
  {R : σ → τ → Prop} {ok : σ → ι → Prop}

theorem run_append (is js : List ι) : ∀ (k : ℕ) (s : σ), run next draw k (is ++ js) s =
    ((run next draw k is s).1 ++ (run next draw (k + is.length) js (run next draw k is s).2).1,
      (run next draw (k + is.length) js (run next draw k is s).2).2) := by
  induction is with
  | nil => exact fun _ _ => rfl
  | cons i is ih =>
    intro k s
    rw [List.cons_append, run, ih, List.length_cons, Nat.add_comm is.length, ← Nat.add_assoc]
    rfl

theorem length_run (is : List ι) : ∀ (k : ℕ) (s : σ),
    (run next draw k is s).1.length = is.length := by
  induction is with
  | nil => exact fun _ _ => rfl
  | cons i is ih =>
    intro k s
    rw [run, List.length_cons, List.length_cons, ih]

/-- The answers to the first inputs do not depend on the later ones. -/
theorem run_isPrefix {is js : List ι} (h : is <+: js) (k : ℕ) (s : σ) :
    (run next draw k is s).1 <+: (run next draw k js s).1 := by
  obtain ⟨rest, rfl⟩ := h
  rw [run_append]
  exact List.prefix_append _ _

theorem Along.of_isPrefix {is js : List ι} (h : is <+: js) : ∀ {k : ℕ} {s : σ},
    Along ok next draw k js s → Along ok next draw k is s := by
  induction is generalizing js with
  | nil => exact fun _ => trivial
  | cons i is ih =>
    intro k s hok
    obtain ⟨rest, rfl⟩ := h
    exact ⟨hok.1, ih (List.prefix_append is rest) hok.2⟩

theorem Along.imp {ok' : σ → ι → Prop} {is : List ι} (himp : ∀ i ∈ is, ∀ s, ok s i → ok' s i) :
    ∀ {k : ℕ} {s : σ}, Along ok next draw k is s → Along ok' next draw k is s := by
  induction is with
  | nil => exact fun _ => trivial
  | cons i is ih =>
    intro k s hok
    rw [List.forall_mem_cons] at himp
    exact ⟨himp.1 s hok.1, ih himp.2 hok.2⟩

theorem run_agree (hagree : Agrees R ok next next') (is : List ι) : ∀ {k : ℕ} {s : σ} {t : τ},
    R s t → Along ok next draw k is s →
      (run next draw k is s).1 = (run next' draw' k is t).1 ∧
        R (run next draw k is s).2 (run next' draw' k is t).2 := by
  induction is with
  | nil => exact fun h _ => ⟨rfl, h⟩
  | cons i is ih =>
    intro k s t h hok
    obtain ⟨hanswer, hstate⟩ := hagree s t i (draw k) (draw' k) h hok.1
    obtain ⟨hrest, hend⟩ := ih hstate hok.2
    exact ⟨by rw [run, run, hanswer, hrest], hend⟩

/-- A replica that has been fed the first inputs. -/
theorem run_isPrefix_agree (hagree : Agrees R ok next next') {is js : List ι} (h : is <+: js)
    {k : ℕ} {s : σ} {t : τ} (hR : R s t) (hok : Along ok next draw k js s) :
    (run next' draw' k is t).1 <+: (run next draw k js s).1 ∧
      R (run next draw k is s).2 (run next' draw' k is t).2 := by
  obtain ⟨hanswers, hstate⟩ := run_agree hagree is hR (hok.of_isPrefix h)
  exact ⟨hanswers ▸ run_isPrefix h k s, hstate⟩

end Replicas
