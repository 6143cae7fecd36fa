import Mathlib.Data.List.Nodup
import Mathlib.Order.Lattice

/-!
# Items that move between places

A placement says for each item at which place it is, and in what state : an item is at one
place at most. A place may hand items over (`hand`), which moves each to its destination and
changes its state.

In a reorganization (`relay`) the places of a list take turns. Each hands over the items
that belong elsewhere under the new rule, and then follows the new rule itself. A place that
does not yet follow it sends the item back. So an item that moves ends where it belongs if
and only if that place had its turn before (`relay_of_mem`).
-/

/-- The place and the state of each item. -/
abbrev Placement (κ ν ε : Type*) := κ → Option (ν × ε)

namespace Placement

variable {κ ν ε : Type*} [DecidableEq ν]

/-- The items at one place. -/
def onto (p : Placement κ ν ε) (a : ν) (k : κ) : Option ε :=
  (p k).bind fun x => if x.1 = a then some x.2 else none

/-- The place `a` sends the items in `sel` to their destinations. -/
def hand (p : Placement κ ν ε) (a : ν) (sel : κ → Prop) [DecidablePred sel] (dest : κ → ν)
    (f : κ → ε → ε) : Placement κ ν ε :=
  fun k => (p k).map fun x => if x.1 = a ∧ sel k then (dest k, f k x.2) else x

/-- The places of a list take turns, after those in `done`. -/
def relay (owner : κ → ν) (f : ν → κ → ε → ε) : List ν → List ν → Placement κ ν ε →
    Placement κ ν ε
  | _, [], p => p
  | done, a :: as, p =>
    relay owner f (a :: done) as
      (p.hand a (owner · ≠ a) (fun k => if owner k ∈ done then owner k else a) (f a))

section Onto

variable {p : Placement κ ν ε} {a b : ν} {k : κ} {e : ε}

theorem onto_eq_some : p.onto a k = some e ↔ p k = some (a, e) := by
  unfold onto
  cases h : p k with
  | none => simp
  | some x =>
    obtain ⟨b, e'⟩ := x
    simp only [Option.bind_some, Option.ite_none_right_eq_some, Option.some.injEq, Prod.mk.injEq]

theorem onto_of_ne (h : p k = some (b, e)) (hne : b ≠ a) : p.onto a k = none := by
  rw [onto, h, Option.bind_some, if_neg hne]

theorem onto_of_none (h : p k = none) : p.onto a k = none := by
  rw [onto, h, Option.bind_none]

end Onto

section Hand

variable {p : Placement κ ν ε} {a b : ν} {k : κ} {e : ε} {sel : κ → Prop} [DecidablePred sel]
  {dest : κ → ν} {f : κ → ε → ε}

theorem hand_of_none (h : p k = none) : p.hand a sel dest f k = none := by
  rw [hand, h, Option.map_none]

theorem hand_of_ne (h : p k = some (b, e)) (hne : b ≠ a) :
    p.hand a sel dest f k = some (b, e) := by
  rw [hand, h, Option.map_some, if_neg fun hc => hne hc.1]

theorem hand_of_not (h : p k = some (b, e)) (hsel : ¬ sel k) :
    p.hand a sel dest f k = some (b, e) := by
  rw [hand, h, Option.map_some, if_neg fun hc => hsel hc.2]

theorem hand_of_sel (h : p k = some (a, e)) (hsel : sel k) :
    p.hand a sel dest f k = some (dest k, f k e) := by
  rw [hand, h, Option.map_some, if_pos ⟨rfl, hsel⟩]

theorem hand_eq_some {e' : ε} (h : p.hand a sel dest f k = some (b, e')) :
    (p k = some (b, e') ∧ ¬ (b = a ∧ sel k)) ∨
      ∃ e, p k = some (a, e) ∧ sel k ∧ b = dest k ∧ e' = f k e := by
  obtain ⟨⟨c, e⟩, hk, hx⟩ := Option.map_eq_some_iff.mp h
  split at hx
  · next hc =>
    obtain ⟨rfl, hsel⟩ := hc
    obtain ⟨hb, he⟩ := Prod.mk.inj hx
    exact .inr ⟨e, hk, hsel, hb.symm, he.symm⟩
  · next hc =>
    obtain ⟨rfl, rfl⟩ := Prod.mk.inj hx
    exact .inl ⟨hk, hc⟩

theorem hand_congr {sel' : κ → Prop} [DecidablePred sel'] {dest' : κ → ν}
    (h : ∀ k e, p k = some (a, e) → ((sel k ↔ sel' k) ∧ (sel k → dest k = dest' k))) :
    p.hand a sel dest f = p.hand a sel' dest' f := by
  ext k : 1
  cases hk : p k with
  | none => rw [hand_of_none hk, hand_of_none hk]
  | some x =>
    obtain ⟨b, e⟩ := x
    by_cases hb : b = a
    · subst hb
      obtain ⟨hiff, hdest⟩ := h k e hk
      by_cases hsel : sel k
      · rw [hand_of_sel hk hsel, hand_of_sel hk (hiff.mp hsel), hdest hsel]
      · rw [hand_of_not hk hsel, hand_of_not hk fun hsel' => hsel (hiff.mpr hsel')]
    · rw [hand_of_ne hk hb, hand_of_ne hk hb]

/-- Two selections without common items may be handed over at once. -/
theorem hand_hand {sel' : κ → Prop} [DecidablePred sel'] (hdisj : ∀ k, sel k → ¬ sel' k) :
    (p.hand a sel dest f).hand a sel' dest f = p.hand a (fun k => sel k ∨ sel' k) dest f := by
  ext k : 1
  cases h : p k with
  | none => rw [hand_of_none (hand_of_none h), hand_of_none h]
  | some x =>
    obtain ⟨b, e⟩ := x
    by_cases hb : b = a
    · subst hb
      by_cases hsel : sel k
      · rw [hand_of_not (hand_of_sel h hsel) (hdisj k hsel), hand_of_sel h (.inl hsel)]
      · by_cases hsel' : sel' k
        · rw [hand_of_sel (hand_of_not h hsel) hsel', hand_of_sel h (.inr hsel')]
        · rw [hand_of_not (hand_of_not h hsel) hsel', hand_of_not h (not_or.mpr ⟨hsel, hsel'⟩)]
    · rw [hand_of_ne (hand_of_ne h hb) hb, hand_of_ne h hb]

end Hand

section Relay

variable {b : ν} {k : κ} {e : ε} {owner : κ → ν} {f : ν → κ → ε → ε}

theorem relay_append :
    ∀ (as bs done : List ν) (p : Placement κ ν ε), relay owner f done (as ++ bs) p =
      relay owner f (as.reverse ++ done) bs (relay owner f done as p)
  | [], _, _, _ => rfl
  | a :: as, bs, done, p => by
    rw [List.cons_append, relay, relay_append, relay, List.reverse_cons, List.append_assoc]
    rfl

theorem relay_of_none : ∀ {as done : List ν} {p : Placement κ ν ε}, p k = none →
    relay owner f done as p k = none
  | [], _, _, h => h
  | _ :: _, _, _, h => by
    rw [relay]
    exact relay_of_none (hand_of_none h)

theorem relay_of_not_mem :
    ∀ {as done : List ν} {p : Placement κ ν ε}, p k = some (b, e) → b ∉ as →
      relay owner f done as p k = some (b, e)
  | [], _, _, h, _ => h
  | _ :: _, _, _, h, hb => by
    rw [List.mem_cons, not_or] at hb
    rw [relay]
    exact relay_of_not_mem (hand_of_ne h hb.1) hb.2

theorem relay_of_owner :
    ∀ {as done : List ν} {p : Placement κ ν ε}, p k = some (owner k, e) →
      relay owner f done as p k = some (owner k, e)
  | [], _, _, h => h
  | a :: _, _, _, h => by
    rw [relay]
    by_cases ha : owner k = a
    · exact relay_of_owner (hand_of_not h (not_not.mpr ha))
    · exact relay_of_owner (hand_of_ne h ha)

/-- An item that belongs elsewhere arrives there if the place it belongs to had its turn
before, and comes back otherwise. -/
theorem relay_of_mem (hne : owner k ≠ b) {post : List ν} (hpost : b ∉ post) :
    ∀ {pre done : List ν} {p : Placement κ ν ε}, p k = some (b, e) → b ∉ pre →
      relay owner f done (pre ++ b :: post) p k =
        some (if owner k ∈ done ∨ owner k ∈ pre then owner k else b, f b k e)
  | [], done, p, h, _ => by
    have hhand : p.hand b (owner · ≠ b) (fun k => if owner k ∈ done then owner k else b) (f b) k =
        some (if owner k ∈ done then owner k else b, f b k e) := hand_of_sel h hne
    simp only [List.nil_append, relay, List.not_mem_nil, or_false]
    by_cases hdone : owner k ∈ done
    · rw [if_pos hdone] at hhand ⊢
      exact relay_of_owner hhand
    · rw [if_neg hdone] at hhand ⊢
      exact relay_of_not_mem hhand hpost
  | a :: pre, done, p, h, hb => by
    rw [List.mem_cons, not_or] at hb
    rw [List.cons_append, relay, relay_of_mem hne hpost (hand_of_ne h hb.1) hb.2]
    simp only [List.mem_cons]
    congr 3
    exact propext (by tauto)

end Relay

end Placement

namespace List

/-- The elements before one of a sorted list are the smaller ones. -/
theorem exists_append_of_sorted {α : Type*} [LinearOrder α] {l : List α} (h : l.Pairwise (· < ·))
    {a : α} (ha : a ∈ l) :
    ∃ pre post, l = pre ++ a :: post ∧ a ∉ pre ∧ a ∉ post ∧ ∀ x ∈ l, x ∈ pre ↔ x < a := by
  obtain ⟨pre, post, rfl⟩ := append_of_mem ha
  rw [pairwise_append, pairwise_cons] at h
  obtain ⟨-, ⟨hpost, -⟩, hpre⟩ := h
  refine ⟨pre, post, rfl, fun hmem => lt_irrefl a (hpre a hmem a mem_cons_self),
    fun hmem => lt_irrefl a (hpost a hmem), fun x hx => ⟨fun hmem => hpre x hmem a mem_cons_self, ?_⟩⟩
  intro hlt
  rcases mem_append.mp hx with hx | hx
  · exact hx
  · rcases mem_cons.mp hx with rfl | hx
    · exact absurd hlt (lt_irrefl x)
    · exact absurd (lt_trans hlt (hpost x hx)) (lt_irrefl x)

end List
