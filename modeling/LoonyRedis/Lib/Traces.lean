import Mathlib.Logic.Basic

/-!
# Runs of a total step function

`states step s is` are the states that the inputs `is` lead through, from `s` on.
`AllSteps step P s is` says that each step on the way has the property `P`, of the state
before the step and the input.

A property of all states of a run, and a transitive relation between any two of them in
order, come down to properties of the steps (`forall_states`, `pairwise_states`), and two
properties of steps that agree wherever an invariant holds hold along the same runs
(`allSteps_congr`).
-/

namespace Traces

variable {σ ι : Type*} {step : σ → ι → σ} {P Q : σ → ι → Prop} {I : σ → Prop}
  {R : σ → σ → Prop} {s : σ}

/-- The states of a run, with the first and the last. -/
def states (step : σ → ι → σ) : σ → List ι → List σ
  | s, [] => [s]
  | s, i :: is => s :: states step (step s i) is

/-- Each step of the run has the property. -/
def AllSteps (step : σ → ι → σ) (P : σ → ι → Prop) : σ → List ι → Prop
  | _, [] => True
  | s, i :: is => P s i ∧ AllSteps step P (step s i) is

theorem states_eq_cons (s : σ) (is : List ι) : ∃ rest, states step s is = s :: rest := by
  cases is with
  | nil => exact ⟨[], rfl⟩
  | cons i is => exact ⟨_, rfl⟩

theorem forall_states : ∀ {is : List ι} {s : σ}, I s →
    ((∀ t ∈ states step s is, I t) ↔ AllSteps step (fun s i => I (step s i)) s is)
  | [], s, hs => by simp [states, AllSteps, hs]
  | i :: is, s, hs => by
    rw [states, List.forall_mem_cons, AllSteps]
    constructor
    · rintro ⟨-, h⟩
      obtain ⟨rest, hrest⟩ := states_eq_cons (step s i) is
      have hnext : I (step s i) := h _ (hrest ▸ List.mem_cons_self)
      exact ⟨hnext, (forall_states hnext).mp h⟩
    · rintro ⟨hnext, h⟩
      exact ⟨hs, (forall_states hnext).mpr h⟩

/-- A transitive relation holds along a run if it holds across each step. -/
theorem pairwise_states (htrans : ∀ {s t u}, R s t → R t u → R s u) :
    ∀ {is : List ι} {s : σ}, (states step s is).Pairwise R ↔
      AllSteps step (fun s i => R s (step s i)) s is
  | [], s => by simp [states, AllSteps]
  | i :: is, s => by
    obtain ⟨rest, hrest⟩ := states_eq_cons (step s i) is
    have ih := @pairwise_states htrans is (step s i)
    rw [states, List.pairwise_cons, AllSteps, ih, hrest, List.forall_mem_cons]
    refine ⟨fun h => ⟨h.1.1, h.2⟩, fun h => ⟨⟨h.1, fun u hu => ?_⟩, h.2⟩⟩
    have hpair := ih.mpr h.2
    rw [hrest, List.pairwise_cons] at hpair
    exact htrans h.1 (hpair.1 u hu)

theorem allSteps_and : ∀ {is : List ι} {s : σ},
    AllSteps step (fun s i => P s i ∧ Q s i) s is ↔ AllSteps step P s is ∧ AllSteps step Q s is
  | [], _ => by simp [AllSteps]
  | i :: is, s => by
    simp only [AllSteps, allSteps_and]
    exact and_and_and_comm

theorem allSteps_of_forall (h : ∀ s i, P s i) : ∀ (is : List ι) (s : σ), AllSteps step P s is
  | [], _ => trivial
  | i :: is, s => ⟨h s i, allSteps_of_forall h is (step s i)⟩

/-- Where an invariant holds the properties agree, and the first keeps the invariant. -/
theorem allSteps_congr (hiff : ∀ s i, I s → (P s i ↔ Q s i))
    (hkeep : ∀ s i, I s → P s i → I (step s i)) :
    ∀ {is : List ι} {s : σ}, I s → (AllSteps step P s is ↔ AllSteps step Q s is)
  | [], _, _ => Iff.rfl
  | i :: is, s, hs => by
    rw [AllSteps, AllSteps, ← hiff s i hs]
    refine and_congr_right fun hP => ?_
    exact allSteps_congr hiff hkeep (hkeep s i hs hP)

end Traces
