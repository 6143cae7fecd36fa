import LoonyRedis.Lib.FinMap
import Mathlib.Data.List.Flatten
import Mathlib.Data.List.Nodup

/-!
# Grouping a list by target

`group target l` collects the items of a list in a map from targets to items, each item at
the end of the list of its target. An item without a target is left out. `pairs m` is a map
of this kind as a list of targets with items.

A target has the items that go there, in their order (`getElem?_group`), so a map that
groups a list without repetition has each item at most once, under all targets together
(`nodup_snd_pairs`).
-/

namespace Grouping

open Std

variable {α κ : Type*} {cmp : κ → κ → Ordering} [TransCmp cmp] [LawfulEqCmp cmp]

/-- Append `x` to the items of `k`. -/
def push (m : ExtTreeMap κ (List α) cmp) (k : κ) (x : α) : ExtTreeMap κ (List α) cmp :=
  m.insert k (m[k]?.getD [] ++ [x])

/-- Append each item of the list to those of its target, if it has one. -/
def pushAll (target : α → Option κ) (m : ExtTreeMap κ (List α) cmp) (l : List α) :
    ExtTreeMap κ (List α) cmp :=
  l.foldl (fun m x => (target x).elim m fun k => push m k x) m

/-- The items by target, in the order of the list. Those without a target are left out. -/
def group (target : α → Option κ) (l : List α) : ExtTreeMap κ (List α) cmp := pushAll target ∅ l

/-- The items with their targets. -/
def pairs (m : ExtTreeMap κ (List α) cmp) : List (κ × α) :=
  m.toList.flatMap fun e => e.2.map fun x => (e.1, x)

variable {target : α → Option κ} {l : List α} {m : ExtTreeMap κ (List α) cmp}

theorem mem_pairs {k : κ} {x : α} : (k, x) ∈ pairs m ↔ ∃ xs, m[k]? = some xs ∧ x ∈ xs := by
  simp only [pairs, List.mem_flatMap, List.mem_map, Prod.mk.injEq]
  constructor
  · rintro ⟨e, he, y, hy, rfl, rfl⟩
    exact ⟨e.2, ExtTreeMap.mem_toList_iff_getElem?_eq_some.mp he, hy⟩
  · rintro ⟨xs, hxs, hx⟩
    exact ⟨(k, xs), ExtTreeMap.mem_toList_iff_getElem?_eq_some.mpr hxs, x, hx, rfl, rfl⟩

variable [DecidableEq κ]

theorem getElem?_push {k j : κ} {x : α} :
    (push m k x)[j]? = if k = j then some (m[j]?.getD [] ++ [x]) else m[j]? := by
  rw [push, FinMap.getElem?_insert]
  split
  · next h => rw [h]
  · rfl

theorem getElem?_pushAll (k : κ) : ∀ (l : List α) (m : ExtTreeMap κ (List α) cmp),
    (pushAll target m l)[k]? =
      if l.filter (fun x => target x = some k) = [] then m[k]?
      else some (m[k]?.getD [] ++ l.filter fun x => target x = some k)
  | [], m => by simp [pushAll]
  | x :: l, m => by
    have hcons : pushAll target m (x :: l) =
        pushAll target ((target x).elim m fun k => push m k x) l := rfl
    rw [hcons, getElem?_pushAll k l]
    by_cases hx : target x = some k
    · simp only [hx, Option.elim_some, getElem?_push, if_true, Option.getD_some, decide_true,
        List.filter_cons_of_pos, reduceCtorEq, if_false, List.append_assoc, List.singleton_append]
      split
      · next hnil => rw [hnil]
      · rfl
    · have hskip : ((target x).elim m fun k => push m k x)[k]? = m[k]? := by
        cases htarget : target x with
        | none => rfl
        | some j =>
          rw [Option.elim_some, getElem?_push, if_neg]
          rintro rfl
          exact hx htarget
      rw [hskip, List.filter_cons_of_neg (by simpa using hx)]

/-- A target has the items that go there, and is there if there are any. -/
theorem getElem?_group (k : κ) : (group target l : ExtTreeMap κ (List α) cmp)[k]? =
    if l.filter (fun x => target x = some k) = [] then none
    else some (l.filter fun x => target x = some k) := by
  rw [group, getElem?_pushAll]
  simp

theorem mem_pairs_group {k : κ} {x : α} :
    (k, x) ∈ pairs (group target l : ExtTreeMap κ (List α) cmp) ↔ x ∈ l ∧ target x = some k := by
  simp only [mem_pairs, getElem?_group, Option.ite_none_left_eq_some, Option.some.injEq]
  constructor
  · rintro ⟨xs, ⟨-, rfl⟩, hx⟩
    simpa using hx
  · intro h
    have hx : x ∈ l.filter fun x => target x = some k := by simpa using h
    exact ⟨_, ⟨List.ne_nil_of_mem hx, rfl⟩, hx⟩

/-- No item is twice in a map that groups a list without repetition, under one target or
under two. -/
theorem nodup_snd_pairs (hl : l.Nodup) :
    ((pairs (group target l : ExtTreeMap κ (List α) cmp)).map Prod.snd).Nodup := by
  set m : ExtTreeMap κ (List α) cmp := group target l with hm
  have hgroups : ∀ e ∈ m.toList, e.2 = l.filter fun x => target x = some e.1 := by
    intro e he
    have hget := ExtTreeMap.mem_toList_iff_getElem?_eq_some.mp he
    rw [hm, getElem?_group, Option.ite_none_left_eq_some, Option.some.injEq] at hget
    exact hget.2.symm
  have hsnd : (pairs m).map Prod.snd = m.toList.flatMap Prod.snd := by
    simp [pairs, List.map_flatMap, Function.comp_def]
  rw [hsnd, List.nodup_flatMap]
  refine ⟨fun e he => hgroups e he ▸ hl.filter _, ?_⟩
  have hkeys : m.toList.Pairwise fun e e' => e.1 ≠ e'.1 :=
    List.pairwise_map.mp FinMap.nodup_keys_toList
  refine hkeys.imp_of_mem fun {e e'} he he' hne x hx hx' => hne ?_
  rw [hgroups e he, List.mem_filter, decide_eq_true_eq] at hx
  rw [hgroups e' he', List.mem_filter, decide_eq_true_eq] at hx'
  exact Option.some.inj (hx.2.symm.trans hx'.2)

end Grouping
