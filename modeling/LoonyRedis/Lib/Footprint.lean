import Mathlib.Data.Set.Basic

/-!
# Footprints

A state is seen through lookups, `look s k` for the value at `k`. An operation on states is
local to a set of keys if its result and its changes there depend on the values at these keys
only, and the values at all other keys stay as they are.

Local operations compose (`Local.bind`), and an operation after a local one that has no key
in common with it does the same as without it (`Local.result_after`).
-/

namespace Footprint

variable {σ κ ν γ δ : Type*} {look : σ → κ → ν}

/-- Two states with the same values at the keys in `ks`. -/
def Agree (look : σ → κ → ν) (ks : Set κ) (s t : σ) : Prop := ∀ k ∈ ks, look s k = look t k

theorem Agree.mono {ks ks' : Set κ} {s t : σ} (h : Agree look ks' s t) (hsub : ks ⊆ ks') :
    Agree look ks s t := fun k hk => h k (hsub hk)

/-- The operation `f` sees and changes only the values at the keys in `ks`. -/
structure Local (look : σ → κ → ν) (f : σ → γ × σ) (ks : Set κ) : Prop where
  result : ∀ {s t : σ}, Agree look ks s t → (f s).1 = (f t).1
  inside : ∀ {s t : σ}, Agree look ks s t → Agree look ks (f s).2 (f t).2
  outside : ∀ (s : σ) {k : κ}, k ∉ ks → look (f s).2 k = look s k

namespace Local

variable {f : σ → γ × σ} {ks ks' : Set κ}

theorem mono (h : Local look f ks) (hsub : ks ⊆ ks') : Local look f ks' where
  result hst := h.result (hst.mono hsub)
  inside {s t} hst k hk := by
    by_cases hmem : k ∈ ks
    · exact h.inside (hst.mono hsub) k hmem
    · rw [h.outside s hmem, h.outside t hmem]
      exact hst k hk
  outside s _ hk := h.outside s fun hmem => hk (hsub hmem)

theorem congr {f' : σ → γ × σ} (h : Local look f ks) (heq : ∀ s, f' s = f s) : Local look f' ks := by
  obtain rfl : f' = f := funext heq
  exact h

/-- An operation that only looks. -/
theorem query {q : σ → γ} (h : ∀ s t, Agree look ks s t → q s = q t) :
    Local look (fun s => (q s, s)) ks where
  result hst := h _ _ hst
  inside hst := hst
  outside _ _ _ := rfl

theorem map (h : Local look f ks) (g : γ → δ) : Local look (fun s => (g (f s).1, (f s).2)) ks where
  result hst := congrArg g (h.result hst)
  inside hst := h.inside hst
  outside s _ hk := h.outside s hk

theorem bind {g : γ → σ → δ × σ} (h : Local look f ks) (hg : ∀ c, Local look (g c) ks) :
    Local look (fun s => g (f s).1 (f s).2) ks where
  result {s t} hst := by
    rw [h.result hst]
    exact (hg _).result (h.inside hst)
  inside {s t} hst := by
    rw [h.result hst]
    exact (hg _).inside (h.inside hst)
  outside s k hk := by
    rw [(hg _).outside _ hk, h.outside s hk]

/-- The result of an operation does not depend on a local one before it that has no key in
common with it. -/
theorem result_after {g : σ → δ × σ} (hf : Local look f ks) (hg : Local look g ks')
    (hdisj : ∀ k ∈ ks', k ∉ ks) (s : σ) : (g (f s).2).1 = (g s).1 :=
  hg.result fun k hk => hf.outside s (hdisj k hk)

end Local

end Footprint
