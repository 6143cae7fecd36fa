import LoonyRedis.Unchanged

/-!
# Properties of the values of a store

The store methods change the value of one key at a time, by one of a few patterns. A property of
all values of the store is kept if the written value has it, and for each pattern this is a
condition on the value before.
-/

namespace LoonyRedis

open Std

namespace Store

variable {α β : Type} {P : Value → Prop} {K : Kind α} {key : String} {s : Store} {dflt : β}
  {init : α} {f : α → Except String β × α}

/-- Each value of the store has a property. -/
def All (P : Value → Prop) (s : Store) : Prop :=
  ∀ (key : String) (e : Entry), s[key]? = some e → P e.value

theorem all_empty : All P ∅ := by
  intro k e he
  simp at he

theorem All.erase (hs : s.All P) (key : String) : All P (s.erase key) := by
  intro k e he
  rw [FinMap.getElem?_erase] at he
  split at he
  · cases he
  · exact hs k e he

theorem All.insert_iff (hs : s.All P) {e : Entry} : All P (s.insert key e) ↔ P e.value := by
  refine ⟨fun h => h key e FinMap.getElem?_insert_self, fun he k e' he' => ?_⟩
  rw [FinMap.getElem?_insert] at he'
  split at he'
  · rw [← Option.some.inj he']
    exact he
  · exact hs k e' he'

theorem All.wrap (hs : s.All P) {e : Entry} {a : α} (he : s[key]? = some e)
    (hv : K.view e.value = some a) : P (K.wrap a) := by
  rw [K.wrap_view hv]
  exact hs key e he

theorem All.get (hs : s.All P) (now : ℕ) (key : String) : (s.get now key).2.All P := by
  unfold Store.get
  split
  · exact hs
  · split
    · exact hs.erase key
    · exact hs

theorem All.del : ∀ {ks : List String} {s : Store}, s.All P → (s.del ks).2.All P
  | [], _, hs => hs
  | k :: ks, s, hs => @All.del ks (s.erase k) (hs.erase k)

theorem All.expire (hs : s.All P) (now : ℕ) (key : String) (ttl : ℕ) :
    (s.expire now key ttl).2.All P := by
  unfold Store.expire
  split
  · exact hs
  · next e he =>
    split
    · exact hs
    · exact hs.insert_iff.mpr (hs key e he)

theorem All.persist (hs : s.All P) (key : String) : (s.persist key).2.All P := by
  unfold Store.persist
  split
  · exact hs
  · next e he =>
    split
    · exact hs.insert_iff.mpr (hs key e he)
    · exact hs

theorem All.set (hs : s.All P) {now : ℕ} {v : Value} {ttl : Option ℕ} (hv : P v) :
    (s.set now key v ttl).All P :=
  hs.insert_iff.mpr hv

/-- A change in place keeps the property if the changed value has it. -/
theorem All.update_iff (hs : s.All P) : (update K key dflt f s).2.All P ↔
    s.IfHeld K key fun a => P (K.wrap (f a).2) := by
  cases he : s[key]? with
  | none =>
    rw [update_none he]
    exact iff_of_true hs (ifHeld_of_none he)
  | some e =>
    cases hv : K.view e.value with
    | none =>
      rw [update_wrong he hv]
      exact iff_of_true hs (ifHeld_of_wrong he hv)
    | some a =>
      rw [update_some he hv, ifHeld_iff he hv]
      exact hs.insert_iff

/-- The same for a key that is created if it is missing. -/
theorem All.upsert_iff (hs : s.All P) : (upsert K key init f s).2.All P ↔
    (s[key]? = none → P (K.wrap (f init).2)) ∧ s.IfHeld K key fun a => P (K.wrap (f a).2) := by
  cases he : s[key]? with
  | none =>
    rw [upsert_none he, forall_prop_of_true rfl, and_iff_left (ifHeld_of_none he)]
    exact hs.insert_iff
  | some e =>
    rw [and_iff_right fun h => by cases h]
    cases hv : K.view e.value with
    | none =>
      rw [upsert_wrong he hv]
      exact iff_of_true hs (ifHeld_of_wrong he hv)
    | some a =>
      rw [upsert_some he hv, ifHeld_iff he hv]
      exact hs.insert_iff

theorem All.update (hs : s.All P) (h : ∀ a, P (K.wrap a) → P (K.wrap (f a).2)) :
    (update K key dflt f s).2.All P :=
  hs.update_iff.mpr fun _ a he hv => h a (hs.wrap he hv)

theorem All.upsert (hs : s.All P) (hinit : P (K.wrap (f init).2))
    (h : ∀ a, P (K.wrap a) → P (K.wrap (f a).2)) : (upsert K key init f s).2.All P :=
  hs.upsert_iff.mpr ⟨fun _ => hinit, fun _ a he hv => h a (hs.wrap he hv)⟩

/-- A move keeps a property of all values of the type. -/
theorem All.move (hs : s.All P) {src dst : String} {take : α → Option β × α} {give : β → α → α}
    (h : ∀ a, P (K.wrap a)) : (move K src dst init take give s).2.All P := by
  cases he : s[src]? with
  | none =>
    rw [move_none he]
    exact hs
  | some e =>
    cases hv : K.view e.value with
    | none =>
      rw [move_wrong he hv]
      exact hs
    | some a =>
      have htaken : All P (s.insert src { e with value := K.wrap (take a).2 }) ↔ _ :=
        hs.insert_iff
      cases hb : (take a).1 with
      | none =>
        rw [move_empty he hv hb]
        exact htaken.mpr (h _)
      | some b =>
        rw [move_some he hv hb]
        exact (htaken.mpr (h _)).upsert (h _) fun _ _ => h _

end Store

namespace Request

variable {P : Value → Prop}

theorem all_hsetLoop (hP : ∀ (h : RedisHash) (f v : Bytes), P (.hash (h.hset f v).2))
    (key : String) :
    ∀ {pairs : List (Bytes × Bytes)} {s : Store}, s.All P → (hsetLoop key pairs s).2.All P
  | [], _, hs => hs
  | (f, v) :: pairs, s, hs => by
    have hstep : (s.hset key f v).2.All P := hs.upsert (hP _ f v) fun h _ => hP h f v
    unfold hsetLoop
    split
    · next heq =>
      rw [heq] at hstep
      exact hstep
    · next heq =>
      rw [heq] at hstep
      exact all_hsetLoop hP key hstep

theorem all_mgetLoop (now : ℕ) : ∀ {ks : List (Option String)} {s : Store},
    s.All P → (mgetLoop now ks s).2.All P
  | [], _, hs => hs
  | none :: ks, s, hs => @all_mgetLoop now ks s hs
  | some k :: ks, s, hs => @all_mgetLoop now ks (s.get now k).2 (hs.get now k)

theorem all_msetLoop (hP : ∀ v : Bytes, P (.string v)) (now : ℕ) :
    ∀ {pairs : List (String × Bytes)} {s : Store}, s.All P → (msetLoop now pairs s).All P
  | [], _, hs => hs
  | (k, v) :: pairs, s, hs => by
    have hstep : (s.set now k (.string v) none).All P := hs.set (hP v)
    exact @all_msetLoop hP now pairs _ hstep

end Request

end LoonyRedis
