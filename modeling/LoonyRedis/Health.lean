import LoonyRedis.Lib.FinMap
import LoonyRedis.Lib.Traces
import LoonyRedis.Requests
import Mathlib.Order.Basic

/-!
# The health of the peers

A node counts the heartbeats in a row that a peer has missed, and holds it as suspected and,
from the third one on, as failed. Gossip from other nodes makes the state of a peer worse, and
leaves the counter.

A miss sets the state by the counter alone. So a peer that gossip has made failed becomes
suspected by a miss, and one that has left the node list and come back starts to count from
zero. `improves_iff` says of each run whether a state gets better in it other than through a
heartbeat that was answered, or a third miss does not make a peer failed, by a condition on the
misses.
-/

namespace LoonyRedis

open Std Traces

/-! ## The states -/

namespace NodeState

/-- From good to bad. -/
def rank : NodeState → ℕ
  | alive => 0
  | suspected => 1
  | failed => 2

/-- The states are told apart by their ranks. -/
theorem rank_injective : Function.Injective rank := by
  intro s t h
  cases s <;> cases t <;> first | rfl | cases h

/-- From good to bad. -/
instance : LinearOrder NodeState := LinearOrder.lift' rank rank_injective

/-- Alive is the best state. -/
theorem alive_le (s : NodeState) : alive ≤ s := Nat.zero_le _

/-- Failed is the worst state. -/
theorem le_failed (s : NodeState) : s ≤ failed := by
  cases s <;> decide

/-- Only failed is worse than suspected. -/
theorem le_suspected {s : NodeState} : s ≤ suspected ↔ s ≠ failed := by
  cases s <;> decide

/-- Whether gossip of `t` is worse than `s`. -/
def worse : NodeState → NodeState → Bool
  | alive, suspected => true
  | alive, failed => true
  | suspected, failed => true
  | _, _ => false

/-- A state that gossip of `t` has come to. -/
def gossiped (s t : NodeState) : NodeState := if s.worse t then t else s

/-- Gossip takes the worse of two states. -/
theorem gossiped_eq_max (s t : NodeState) : s.gossiped t = max s t := by
  cases s <;> cases t <;> decide

end NodeState

/-! ## The table -/

/-- The number of missed pings with which a peer has failed. -/
def failThreshold : UInt32 := 3

/-- The state of a peer and the pings it has missed in a row. -/
structure NodeHealth where
  state : NodeState
  missed : UInt32
  deriving DecidableEq

/-- A peer that was not heard of counts as alive. -/
def defaultHealth : NodeHealth := ⟨.alive, 0⟩

/-- The peers, with their health. -/
abbrev HealthTable := ExtTreeMap String NodeHealth compare

namespace HealthTable

/-- A table in which all peers are alive. -/
def new (peers : List String) : HealthTable :=
  peers.foldl (fun t peer => t.insert peer defaultHealth) ∅

variable (t : HealthTable) (addr : String)

/-- The entry of `addr`, or a new one. -/
def entry : NodeHealth := t[addr]?.getD defaultHealth

/-- Change the entry of `addr`, or a new one. -/
def update (f : NodeHealth → NodeHealth) : HealthTable := t.insert addr (f (t.entry addr))

/-- A peer has answered. -/
def markAlive : HealthTable := t.update addr fun _ => ⟨.alive, 0⟩

/-- The entry after one more miss. -/
def missedOnce (h : NodeHealth) : NodeHealth :=
  ⟨if failThreshold ≤ h.missed + 1 then .failed else .suspected, h.missed + 1⟩

/-- Also the resulting state. -/
def recordMiss : HealthTable × NodeState :=
  (t.update addr missedOnce, (missedOnce (t.entry addr)).state)

/-- Add the nodes that have no row, and drop the rows of the others. -/
def syncNodes (addrs : List String) : HealthTable :=
  (addrs.foldl (fun t a => t.update a id) t).filter fun a _ => a ∈ addrs

/-- Take over what another node says, row by row, by `NodeState.gossiped`. -/
def applyGossip (updates : List (String × NodeState)) : HealthTable :=
  updates.foldl (fun t u => t.update u.1 fun h => { h with state := h.state.gossiped u.2 }) t

end HealthTable

/-- The operations on a table. -/
inductive HealthOp where
  | markAlive (addr : String)
  | recordMiss (addr : String)
  | applyGossip (updates : List (String × NodeState))
  | syncNodes (addrs : List String)

/-- A table, and for each address the misses that were recorded since it was last marked
alive. -/
structure HealthRun where
  table : HealthTable
  misses : String → ℕ

namespace HealthRun

/-- No ping is missed at the start. -/
def init (peers : List String) : HealthRun := ⟨.new peers, fun _ => 0⟩

/-- One operation, and the pings that were missed since the last answer, without overflow. -/
def step (r : HealthRun) : HealthOp → HealthRun
  | .markAlive a => ⟨r.table.markAlive a, Function.update r.misses a 0⟩
  | .recordMiss a => ⟨(r.table.recordMiss a).1, Function.update r.misses a (r.misses a + 1)⟩
  | .applyGossip updates => { r with table := r.table.applyGossip updates }
  | .syncNodes addrs => { r with table := r.table.syncNodes addrs }

/-- The step makes no state better, except for `markAlive` the state of its address, and from
the third miss on it returns `Failed`. -/
def Improves (r : HealthRun) (op : HealthOp) : Prop :=
  (∀ a h h', r.table[a]? = some h → (r.step op).table[a]? = some h' →
    h.state ≤ h'.state ∨ op = .markAlive a) ∧
  ∀ a, op = .recordMiss a → 3 ≤ (r.step op).misses a → (r.table.recordMiss a).2 = .failed

/-- A miss is recorded where the counter does not stand at its largest value. Where it stands
below two, the address is not held as failed, and no misses were lost that make this the third. -/
def Counts (r : HealthRun) : HealthOp → Prop
  | .recordMiss a => (r.table.entry a).missed.toNat ≠ 2 ^ 32 - 1 ∧
    ((r.table.entry a).missed.toNat < 2 → (r.table.entry a).state ≠ .failed ∧ r.misses a < 2)
  | _ => True

end HealthRun

/-! ## What the operations do to an entry -/

namespace HealthTable

variable {t : HealthTable} {a b : String} {h h' : NodeHealth} {f : NodeHealth → NodeHealth}

/-- A known address has the health the table holds. -/
theorem entry_of_getElem? (ha : t[a]? = some h) : t.entry a = h := by
  rw [entry, ha, Option.getD_some]

/-- An update changes its address only. -/
theorem getElem?_update :
    (t.update a f)[b]? = if a = b then some (f (t.entry a)) else t[b]? :=
  FinMap.getElem?_insert

/-- An update changes the health of its address only. -/
theorem entry_update : (t.update a f).entry b = if a = b then f (t.entry a) else t.entry b := by
  rw [entry, getElem?_update]
  split
  · rfl
  · rfl

/-- An update makes its address known, and forgets nobody. -/
theorem mem_update : b ∈ t.update a f ↔ a = b ∨ b ∈ t := by
  rw [update, ExtTreeMap.mem_insert, LawfulEqCmp.compare_eq_iff_eq]

/-- A known address has an entry. -/
theorem getElem?_of_mem (ha : a ∈ t) : t[a]? = some (t.entry a) := by
  rw [entry, ExtTreeMap.getElem?_eq_some_getElem ha, Option.getD_some]

/-- The states that the updates have for `a`. -/
def heard (a : String) (updates : List (String × NodeState)) : List NodeState :=
  (updates.filter fun u => u.1 = a).map Prod.snd

/-- What is heard of an address is heard from the updates in turn. -/
theorem heard_cons (a : String) (u : String × NodeState) (updates : List (String × NodeState)) :
    heard a (u :: updates) = if u.1 = a then u.2 :: heard a updates else heard a updates := by
  by_cases hua : u.1 = a <;> simp [heard, hua]

/-- Gossip has its effect on the state, and leaves the counter. -/
theorem entry_applyGossip (updates : List (String × NodeState)) (t : HealthTable) :
    (t.applyGossip updates).entry a =
      ⟨(heard a updates).foldl max (t.entry a).state, (t.entry a).missed⟩ := by
  induction updates generalizing t with
  | nil => rfl
  | cons u updates ih =>
    change ((t.update u.1 fun h => { h with state := h.state.gossiped u.2 }).applyGossip
      updates).entry a = _
    rw [ih, entry_update, heard_cons]
    by_cases hua : u.1 = a
    · rw [if_pos hua, if_pos hua, hua, List.foldl_cons, NodeState.gossiped_eq_max]
    · rw [if_neg hua, if_neg hua]

/-- Gossip makes the addresses it names known, and forgets nobody. -/
theorem mem_applyGossip (updates : List (String × NodeState)) (t : HealthTable) :
    a ∈ t.applyGossip updates ↔ a ∈ t ∨ a ∈ updates.map Prod.fst := by
  induction updates generalizing t with
  | nil => exact ⟨.inl, fun h => h.resolve_right List.not_mem_nil⟩
  | cons u updates ih =>
    change a ∈ (t.update u.1 fun h => { h with state := h.state.gossiped u.2 }).applyGossip
      updates ↔ _
    rw [ih, mem_update, List.map_cons, List.mem_cons, eq_comm (a := u.1)]
    tauto

/-- Gossip makes no state better. -/
theorem le_applyGossip (updates : List (String × NodeState)) (t : HealthTable) :
    (t.entry a).state ≤ ((t.applyGossip updates).entry a).state := by
  rw [entry_applyGossip]
  generalize (t.entry a).state = s
  induction heard a updates generalizing s with
  | nil => exact le_rfl
  | cons u l ih => exact (le_max_left s u).trans (ih _)

/-- A new entry is the one that there would be. -/
theorem entry_foldl_update_id (addrs : List String) (t : HealthTable) :
    entry (addrs.foldl (fun t a => t.update a id) t) a = t.entry a := by
  induction addrs generalizing t with
  | nil => rfl
  | cons b addrs ih =>
    rw [List.foldl_cons, ih, entry_update]
    split
    · next hba => rw [hba, id]
    · rfl

/-- Touching a list of addresses makes them known, and forgets nobody. -/
theorem mem_foldl_update_id (addrs : List String) (t : HealthTable) :
    a ∈ addrs.foldl (fun t a => t.update a id) t ↔ a ∈ addrs ∨ a ∈ t := by
  induction addrs generalizing t with
  | nil => exact ⟨.inr, fun h => h.resolve_left List.not_mem_nil⟩
  | cons b addrs ih =>
    rw [List.foldl_cons, ih, mem_update, List.mem_cons, eq_comm]
    tauto

/-- The table has the addresses of the list, each with the entry that it had, or a new one. -/
theorem getElem?_syncNodes (addrs : List String) (t : HealthTable) :
    (t.syncNodes addrs)[a]? = if a ∈ addrs then some (t.entry a) else none := by
  rw [syncNodes, ExtTreeMap.getElem?_filter']
  by_cases hmem : a ∈ addrs
  · rw [getElem?_of_mem ((mem_foldl_update_id addrs t).mpr (.inl hmem)), entry_foldl_update_id,
      Option.filter_some, if_pos (decide_eq_true hmem), if_pos hmem]
  · rw [if_neg hmem, Option.filter_eq_none_iff]
    intro h _
    rw [decide_eq_true_eq]
    exact hmem

/-- The counter of an entry that is dropped starts again. -/
theorem missed_syncNodes (addrs : List String) (t : HealthTable) (a : String) :
    ((t.syncNodes addrs).entry a).missed.toNat ≤ (t.entry a).missed.toNat := by
  rw [entry, getElem?_syncNodes]
  split
  · exact le_rfl
  · exact Nat.zero_le _

end HealthTable

/-! ## Misses -/

/-- A missed ping fails a node from the third on, while the counter does not wrap. -/
theorem missedOnce_failed {h : NodeHealth} : (HealthTable.missedOnce h).state = .failed ↔
    2 ≤ h.missed.toNat ∧ h.missed.toNat < 2 ^ 32 - 1 := by
  have hle : failThreshold ≤ h.missed + 1 ↔ 2 ≤ h.missed.toNat ∧ h.missed.toNat < 2 ^ 32 - 1 := by
    have hlt := h.missed.toNat_lt
    have hthree : failThreshold.toNat = 3 := rfl
    have hone : (1 : UInt32).toNat = 1 := rfl
    rw [UInt32.le_iff_toNat_le, UInt32.toNat_add, hthree, hone]
    omega
  rw [← hle, HealthTable.missedOnce]
  by_cases hfail : failThreshold ≤ h.missed + 1
  · simp only [hfail, if_true]
  · simp [hfail]

/-- When a miss does not make the state better. -/
theorem le_missedOnce_iff {h : NodeHealth} : h.state ≤ (HealthTable.missedOnce h).state ↔
    (HealthTable.missedOnce h).state = .failed ∨ h.state ≠ .failed := by
  rw [HealthTable.missedOnce]
  split
  · exact iff_of_true h.state.le_failed (.inl rfl)
  · rw [NodeState.le_suspected]
    exact (or_iff_right nofun).symm

namespace HealthRun

open HealthTable

variable {r : HealthRun} {a : String}

/-- When a missed ping makes the state no better. -/
theorem improves_recordMiss_iff : r.Improves (.recordMiss a) ↔
    (r.table.entry a).state ≤ (missedOnce (r.table.entry a)).state ∧
      (2 ≤ r.misses a → (missedOnce (r.table.entry a)).state = .failed) := by
  have hmisses : (r.step (.recordMiss a)).misses a = r.misses a + 1 := Function.update_self ..
  have htable : ∀ b, (r.step (.recordMiss a)).table[b]? =
      if a = b then some (missedOnce (r.table.entry a)) else r.table[b]? := fun b => getElem?_update
  constructor
  · rintro ⟨hbetter, hthird⟩
    refine ⟨?_, fun hle => hthird a rfl (by rw [hmisses]; omega)⟩
    by_cases hmem : a ∈ r.table
    · have hnew := htable a
      rw [if_pos rfl] at hnew
      exact (hbetter a _ _ (getElem?_of_mem hmem) hnew).resolve_right nofun
    · rw [entry, ExtTreeMap.getElem?_eq_none hmem]
      exact NodeState.alive_le _
  · rintro ⟨hle, hthird⟩
    refine ⟨fun b h h' hb hb' => .inl ?_, fun b heq hthree => ?_⟩
    · rw [htable] at hb'
      split at hb'
      · next hab =>
        subst hab
        rw [entry_of_getElem? hb] at hle hb'
        rwa [← Option.some.inj hb']
      · rw [hb] at hb'
        rw [Option.some.inj hb']
    · obtain rfl := HealthOp.recordMiss.inj heq
      rw [hmisses] at hthree
      exact hthird (by omega)

/-- Any other step. -/
theorem improves_of_ne {op : HealthOp} (hop : ∀ a, op ≠ .recordMiss a) : r.Improves op := by
  refine ⟨fun a h h' ha ha' => ?_, fun a heq => absurd heq (hop a)⟩
  cases op with
  | recordMiss b => exact absurd rfl (hop b)
  | markAlive b =>
    by_cases hba : b = a
    · exact .inr (by rw [hba])
    · have hsame : (r.table.markAlive b)[a]? = r.table[a]? := getElem?_update.trans (if_neg hba)
      rw [step, hsame, ha] at ha'
      rw [Option.some.inj ha']
      exact .inl le_rfl
  | applyGossip updates =>
    have hle := le_applyGossip (a := a) updates r.table
    have hnew : (r.table.applyGossip updates).entry a = h' := entry_of_getElem? ha'
    rw [entry_of_getElem? ha, hnew] at hle
    exact .inl hle
  | syncNodes addrs =>
    rw [step, getElem?_syncNodes, Option.ite_none_right_eq_some, entry_of_getElem? ha] at ha'
    rw [Option.some.inj ha'.2]
    exact .inl le_rfl

/-! ## Runs -/

/-- No entry counts misses that were not recorded. -/
def Inv (r : HealthRun) : Prop := ∀ a, (r.table.entry a).missed.toNat ≤ r.misses a

/-- The health table starts in its invariant. -/
theorem inv_init (peers : List String) : (init peers).Inv := by
  intro a
  have hnew : ∀ t : HealthTable, (t.entry a).missed = 0 →
      (entry (peers.foldl (fun t peer => t.insert peer defaultHealth) t) a).missed = 0 := by
    intro t ht
    induction peers generalizing t with
    | nil => exact ht
    | cons peer peers ih =>
      refine ih _ ?_
      rw [entry, FinMap.getElem?_insert]
      split
      · rfl
      · exact ht
  have hzero : ((init peers).table.entry a).missed = 0 := by
    refine hnew ∅ ?_
    rw [entry, ExtTreeMap.getElem?_empty]
    rfl
  rw [hzero]
  exact Nat.zero_le _

/-- An operation keeps the invariant. -/
theorem Inv.step (hr : r.Inv) (op : HealthOp) : (r.step op).Inv := by
  intro b
  cases op with
  | markAlive a =>
    change ((r.table.update a _).entry b).missed.toNat ≤ Function.update r.misses a 0 b
    rw [entry_update, Function.update_apply]
    by_cases hab : a = b
    · rw [if_pos hab]
      exact Nat.zero_le _
    · rw [if_neg hab, if_neg (Ne.symm hab)]
      exact hr b
  | recordMiss a =>
    change ((r.table.update a missedOnce).entry b).missed.toNat ≤
      Function.update r.misses a (r.misses a + 1) b
    rw [entry_update, Function.update_apply]
    by_cases hab : a = b
    · rw [if_pos hab, if_pos hab.symm]
      have hle : ((r.table.entry a).missed + 1).toNat ≤ (r.table.entry a).missed.toNat + 1 := by
        rw [UInt32.toNat_add]
        exact Nat.mod_le _ _
      exact hle.trans (Nat.succ_le_succ (hr a))
    · rw [if_neg hab, if_neg (Ne.symm hab)]
      exact hr b
  | applyGossip updates =>
    change ((r.table.applyGossip updates).entry b).missed.toNat ≤ r.misses b
    rw [entry_applyGossip]
    exact hr b
  | syncNodes addrs => exact (missed_syncNodes addrs r.table b).trans (hr b)

/-- In the invariant, the states follow the count of misses. -/
theorem Inv.improves_iff_counts (hr : r.Inv) (op : HealthOp) : r.Improves op ↔ r.Counts op := by
  cases op with
  | recordMiss a =>
    have hle := hr a
    have hlt := (r.table.entry a).missed.toNat_lt
    rw [improves_recordMiss_iff, le_missedOnce_iff, missedOnce_failed, Counts]
    by_cases hfailed : (r.table.entry a).state = .failed
    · simp only [hfailed, ne_eq, not_true_eq_false, false_and, or_false, imp_false]
      omega
    · simp only [hfailed, ne_eq, not_false_eq_true, true_and, or_true]
      omega
  | markAlive a => exact iff_of_true (improves_of_ne nofun) trivial
  | applyGossip updates => exact iff_of_true (improves_of_ne nofun) trivial
  | syncNodes addrs => exact iff_of_true (improves_of_ne nofun) trivial

/-- In a run the states get better only where a heartbeat was answered, and each third miss makes
a peer failed, if and only if each miss is recorded where it counts. -/
theorem improves_iff (peers : List String) (ops : List HealthOp) :
    AllSteps step Improves (init peers) ops ↔ AllSteps step Counts (init peers) ops :=
  allSteps_congr (fun _ op hr => hr.improves_iff_counts op) (fun _ op hr _ => hr.step op)
    (inv_init peers)

/-- Gossip makes a peer failed while it is being pinged, and the ping is not answered. -/
theorem failed_gets_better :
    ¬ AllSteps step Improves (init ["a:1"])
      [.applyGossip [("a:1", .failed)], .recordMiss "a:1"] := by
  rintro ⟨-, himproves, -⟩
  have hentry : ((init ["a:1"]).step (.applyGossip [("a:1", .failed)])).table.entry "a:1" =
      ⟨.failed, 0⟩ := by
    decide +kernel
  rw [improves_recordMiss_iff, hentry] at himproves
  exact absurd himproves.1 (by decide)

end HealthRun

end LoonyRedis
