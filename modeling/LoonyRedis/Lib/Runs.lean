import Mathlib.Logic.Basic

/-!
# Runs of a step function

A system is a partial step function on states and events. `Run step ok s t` says that
`t` is reached from `s` by steps each of which meets `ok`, a condition on the state
before the step and the event. A plain run has the condition `fun _ _ => True`.

`Run.invariant` is induction over a run. `Run.history` is induction over a run with a
history that only grows : the invariant speaks of the state and of a record of the past
that the system itself does not keep. `exec` computes a run from its list of events, for
runs on fixed inputs.
-/

namespace Runs

variable {σ ε η : Type*} {step : σ → ε → Option σ} {ok ok' : σ → ε → Prop} {s t u : σ}

/-- `t` is reached from `s` by steps that all meet `ok`. -/
inductive Run (step : σ → ε → Option σ) (ok : σ → ε → Prop) : σ → σ → Prop
  | refl (s : σ) : Run step ok s s
  | tail {s t u : σ} {e : ε} : Run step ok s t → ok t e → step t e = some u → Run step ok s u

namespace Run

theorem trans (h : Run step ok s t) (h' : Run step ok t u) : Run step ok s u := by
  induction h' with
  | refl => exact h
  | tail _ hok hstep ih => exact .tail ih hok hstep

/-- A run under a condition is a run under any weaker one. -/
theorem mono (himp : ∀ s e, ok s e → ok' s e) (h : Run step ok s t) : Run step ok' s t := by
  induction h with
  | refl => exact .refl _
  | tail _ hok hstep ih => exact .tail ih (himp _ _ hok) hstep

/-- What every step keeps holds in every state reached. -/
theorem invariant {I : σ → Prop}
    (hstep : ∀ s e t, I s → ok s e → step s e = some t → I t)
    (h : Run step ok s t) (hs : I s) : I t := by
  induction h with
  | refl => exact hs
  | tail _ hok he ih => exact hstep _ _ _ ih hok he

/-- The same with a history : each step may extend the record of the past. -/
theorem history {I : σ → η → Prop} {le : η → η → Prop} (hrefl : ∀ g, le g g)
    (htrans : ∀ g₁ g₂ g₃, le g₁ g₂ → le g₂ g₃ → le g₁ g₃)
    (hstep : ∀ s e t g, I s g → ok s e → step s e = some t → ∃ g', le g g' ∧ I t g')
    (h : Run step ok s t) {g : η} (hs : I s g) : ∃ g', le g g' ∧ I t g' := by
  induction h with
  | refl => exact ⟨g, hrefl g, hs⟩
  | tail _ hok he ih =>
    obtain ⟨g₁, hle, hinv⟩ := ih
    obtain ⟨g₂, hle', hinv'⟩ := hstep _ _ _ _ hinv hok he
    exact ⟨g₂, htrans _ _ _ hle hle', hinv'⟩

end Run

/-- The state after the events, if each is enabled and meets `ok`. -/
def exec (step : σ → ε → Option σ) (ok : σ → ε → Prop) [∀ s e, Decidable (ok s e)] :
    σ → List ε → Option σ
  | s, [] => some s
  | s, e :: es => if ok s e then (step s e).bind fun t => exec step ok t es else none

theorem run_of_exec [∀ s e, Decidable (ok s e)] :
    ∀ {es : List ε} {s t : σ}, exec step ok s es = some t → Run step ok s t
  | [], s, t, h => by
    obtain rfl : s = t := by simpa [exec] using h
    exact .refl s
  | e :: es, s, t, h => by
    rw [exec] at h
    split at h
    · next hok =>
      obtain ⟨u, hu, hrest⟩ := Option.bind_eq_some_iff.mp h
      exact (Run.tail (.refl s) hok hu).trans (run_of_exec hrest)
    · simp at h

/-- A computed run, with what a test finds of the state it ends in. -/
theorem exists_run_of_exec [∀ s e, Decidable (ok s e)] {s : σ} {es : List ε} {p : σ → Bool}
    (h : (exec step ok s es).any p = true) : ∃ t, Run step ok s t ∧ p t = true := by
  cases hexec : exec step ok s es with
  | none => simp [hexec] at h
  | some t => exact ⟨t, run_of_exec hexec, by simpa [hexec] using h⟩

end Runs
