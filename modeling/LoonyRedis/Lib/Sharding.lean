import LoonyRedis.Lib.Footprint
import Mathlib.Logic.Function.Basic

/-!
# A state in parts

The keys of a state are shared out among places by `owner`, and each place has a state of its own.
The places are the parts of one state if each has the value of that state at every key it owns
(`Parts`); what a place has at the keys of others does not matter.

An operation that is local to keys of one place has the same result there as on the one state, and
if it is run on both they stay parts of it (`Parts.result`, `Parts.update`).
-/

namespace Footprint

variable {σ κ ι ν γ : Type*} {look : σ → κ → ν} {owner : κ → ι}

/-- Each place has the value of `t` at every key it owns. -/
def Parts (look : σ → κ → ν) (owner : κ → ι) (places : ι → σ) (t : σ) : Prop :=
  ∀ k, look (places (owner k)) k = look t k

namespace Parts

variable {places : ι → σ} {t : σ} {f : σ → γ × σ} {ks : Set κ} {a : ι}

/-- A place and the one state agree on the keys of the place. -/
theorem agree (h : Parts look owner places t) (hown : ∀ k ∈ ks, owner k = a) :
    Agree look ks (places a) t := by
  intro k hk
  rw [← hown k hk]
  exact h k

theorem result (h : Parts look owner places t) (hf : Local look f ks)
    (hown : ∀ k ∈ ks, owner k = a) : (f (places a)).1 = (f t).1 :=
  hf.result (h.agree hown)

theorem update [DecidableEq ι] (h : Parts look owner places t) (hf : Local look f ks)
    (hown : ∀ k ∈ ks, owner k = a) :
    Parts look owner (Function.update places a (f (places a)).2) (f t).2 := by
  intro k
  by_cases hk : k ∈ ks
  · rw [hown k hk, Function.update_self]
    exact hf.inside (h.agree hown) k hk
  · rw [hf.outside t hk, ← h k]
    by_cases ha : owner k = a
    · rw [ha, Function.update_self]
      exact hf.outside _ hk
    · rw [Function.update_of_ne ha]

end Parts

end Footprint
